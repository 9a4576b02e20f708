import Marsh.Shellmux.ClosingJobs
import Marsh.Shellmux.JobRows

/-!
# Launches and their rows

While every operation finds the row it began with under its name, a row is
reserved for at most one launch, and a launch keeps its row from the moment it
has read it until it publishes its command there.
-/

namespace Marsh
namespace Shellmux

open Library

/-! ## Operations and conclusions after a section -/

section Jobs

variable {state next : JobState} {step : JobStep}

/-- An operation on a name was in progress before, or begins with the row of the
name. -/
theorem owner_of_step
    (steps : state.Steps step next)
    {task : Task}
    (member : task ∈ next.tasks)
    {id : String}
    {origin : Sandbox}
    (owner : task.owner = some (id, origin)) :
    (∃ old ∈ state.tasks, old.owner = some (id, origin)) ∨
      (∃ uid anonymous cmd, step = .spawn id uid anonymous cmd ∧
        origin = ⟨id, uid⟩) ∨
      ∃ job ∈ state.table.rows, job.id = id ∧ origin = job.sandbox := by
  rcases JobState.tasks_of_step steps member with old | new
  · exact .inl ⟨task, old, owner⟩
  · cases step with
    | spawn name uid anonymous cmd =>
        obtain rfl := new
        obtain ⟨rfl, rfl⟩ := Prod.mk.inj (Option.some.inj owner)
        exact .inr (.inl ⟨uid, anonymous, cmd, rfl, rfl⟩)
    | build name sandbox cmd =>
        obtain ⟨began, given, -, rfl⟩ := new
        exact .inl ⟨_, began, owner⟩
    | startIn name cmd =>
        obtain ⟨job, found, rfl⟩ := new
        obtain ⟨rfl, rfl⟩ := Prod.mk.inj (Option.some.inj owner)
        exact .inr (.inr ⟨job, JobTable.mem_of_find found,
          JobTable.find_some_id found, rfl⟩)
    | waited name cmd began =>
        obtain ⟨old, rfl⟩ := new
        exact .inl ⟨_, old, owner⟩
    | prepare name cmd began owned =>
        obtain ⟨old, ⟨job, -, -, rfl⟩ | rfl⟩ := new <;>
          exact .inl ⟨_, old, owner⟩
    | launch name cmd began sandbox owned pid plan =>
        obtain ⟨old, rfl⟩ := new
        exact .inl ⟨_, old, owner⟩
    | failLaunch name cmd began sandbox owned tree cleared =>
        obtain ⟨old, rfl⟩ := new
        exact .inl ⟨_, old, owner⟩
    | publish name began started killed =>
        obtain rfl := new
        contradiction
    | reap name pid =>
        obtain ⟨-, job, started, -, -, rfl⟩ := new
        contradiction
    | reportFailure name began =>
        obtain ⟨job, -, -, rfl⟩ := new
        contradiction
    | stop name force =>
        obtain ⟨job, -, -, rfl⟩ := new
        contradiction
    | refuseSpawn | failBuild | refuseSize | submit | take | conclude | finish
    | checkClose | reclaimConcluded | keep | reclaim | closeSandbox | cancel
    | killAll | releaseAll => exact new.elim

/-- The conclusion task has concluded a command once its conclusion has run. -/
theorem reporting_of_step
    (steps : state.Steps step next)
    {id : String}
    (reporting : next.Reporting id) :
    state.Reporting id ∧ (∀ retained, step ≠ .conclude retained) ∨
      ∃ retained conclusion, step = .conclude retained ∧
        state.concluder = .concluding conclusion ∧ conclusion.id = id := by
  obtain same | moved := JobState.concluder_of_step steps
  · refine .inl ⟨by simpa only [JobState.Reporting, same] using reporting, ?_⟩
    rintro retained rfl
    obtain ⟨conclusion, concluding, rfl⟩ := steps
    rw [concluding] at same
    contradiction
  · cases concluder : state.concluder with
    | taking =>
        rw [concluder] at moved
        subst moved
        obtain ⟨taken, rest, -, -, rfl⟩ := steps
        obtain ⟨retained, none | none⟩ := reporting <;> contradiction
    | concluding conclusion =>
        rw [concluder] at moved
        obtain ⟨retained, rfl, reports⟩ := moved
        obtain ⟨after, reported | closing⟩ := reporting
        · rw [reports] at reported
          exact .inr ⟨retained, conclusion, rfl, rfl,
            (ConcludeTask.reporting.inj reported).1⟩
        · rw [reports] at closing
          contradiction
    | reporting name retained =>
        rw [concluder] at moved
        obtain ⟨rfl, closes⟩ := moved
        obtain ⟨after, reported | closing⟩ := reporting
        · rw [closes] at reported
          contradiction
        · rw [closes] at closing
          obtain ⟨rfl, rfl⟩ := ConcludeTask.closing.inj closing
          exact .inl ⟨⟨_, .inl concluder⟩, by simp⟩
    | closing name retained =>
        rw [concluder] at moved
        subst moved
        obtain ⟨name, retained, -, ⟨-, rfl⟩ |
          ⟨sandbox, -, -, ⟨-, rfl⟩ | ⟨-, rfl⟩⟩⟩ :=
          JobState.checkClose_cases steps <;>
          obtain ⟨after, none | none⟩ := reporting <;> contradiction
    | reclaiming sandbox =>
        rw [concluder] at moved
        subst moved
        obtain ⟨sandbox, -, rfl⟩ := steps
        obtain ⟨after, none | none⟩ := reporting <;> contradiction

/-- Removing rows and dropping operations keeps a state well formed. -/
theorem JobState.WellFormed.of_fewer
    (formed : state.WellFormed)
    (rows : next.table.rows.Sublist state.table.rows)
    (tasks : ∀ task ∈ next.tasks, task ∈ state.tasks)
    (queue : next.queue = state.queue)
    (concluder : next.concluder = state.concluder)
    (issued : next.issued = state.issued) : next.WellFormed where
  named := formed.named.sublist (rows.map Job.id)
  distinct := formed.distinct.sublist (rows.map _)
  known job member := issued ▸ formed.known job (rows.subset member)
  labelled job member := formed.labelled job (rows.subset member)
  owned task member := issued ▸ formed.owned task (tasks task member)
  commanded command member := by
    rw [issued]
    refine formed.commanded command (JobState.mem_commands.mpr ?_)
    rw [← queue, ← concluder]
    exact (JobState.mem_commands.mp member).imp
      (fun ⟨task, old, holds⟩ => ⟨task, tasks task old, holds⟩)
      (Or.imp_left fun ⟨job, old, holds⟩ => ⟨job, rows.subset old, holds⟩)
  gone sandbox closed := by
    obtain ⟨known, lost⟩ := formed.gone sandbox
      (closed.imp (tasks _) (fun same => concluder ▸ same))
    exact ⟨issued ▸ known, fun job member => lost job (rows.subset member)⟩
  tallied := formed.tallied.congr (by rw [queue]) (by rw [queue]) fun id => by
    rw [concluder]

end Jobs

/-! ## Launches and the rows they are reserved for -/

/-- The uid of the row a launch in progress is reserved for. -/
def Task.reservedUid (task : Task) : Option String :=
  task.reservation.map fun reserved => reserved.2.uid

/-- The sandbox a launch read is the one of the row it began with. -/
def Task.Located : Task -> Prop
  | .launching _ _ origin sandbox _ => sandbox = origin
  | .publishing _ origin started => started.sandbox = origin
  | .building _ _ _ | .waiting _ _ _ | .preparing _ _ _ _ | .failing _ _
  | .watching _ _ | .submitting _ | .reclaiming _ => True

/-- The row a launch that forks or publishes a command began with. -/
def Task.launchOrigin : Task -> Option Sandbox
  | .launching _ _ origin _ _ => some origin
  | .publishing _ origin _ => some origin
  | .building _ _ _ | .waiting _ _ _ | .preparing _ _ _ _ | .failing _ _
  | .watching _ _ | .submitting _ | .reclaiming _ => none

/-- No launch forks or publishes a command for the row of this sandbox. -/
def JobState.Unlaunched (state : JobState) (sandbox : Sandbox) : Prop :=
  ∀ task ∈ state.tasks, ∀ origin, task.launchOrigin = some origin ->
    origin.uid ≠ sandbox.uid

namespace JobState

/-- Every operation finds the row it began with under its name, or none. -/
def FindsOwn (state : JobState) : Prop :=
  ∀ task ∈ state.tasks, ∀ id origin, task.owner = some (id, origin) ->
    ∀ job ∈ state.table.rows, job.id = id -> job.sandbox = origin

/-- A row is reserved for at most one launch, a command runs in the sandbox of
its row, a launch that forks or publishes has its row, and a row that is being
built is not launched into. -/
structure Sited (state : JobState) : Prop where
  reserved : ∀ job ∈ state.table.rows,
    taskCount Task.reservedUid state.tasks job.sandbox.uid ≤ job.startingCount
  located : ∀ task ∈ state.tasks, task.Located
  housed : ∀ job ∈ state.table.rows, ∀ started, job.running = some started ->
    started.sandbox = job.sandbox
  placed : ∀ task ∈ state.tasks, ∀ origin, task.launchOrigin = some origin ->
    ∃ job ∈ state.table.rows, job.sandbox = origin
  unbuilt : ∀ id sandbox cmd, Task.building id sandbox cmd ∈ state.tasks ->
    (∀ job ∈ state.table.rows, job.sandbox.uid = sandbox.uid ->
      job.built = false) ∧ state.Unlaunched sandbox
  building : ∀ uid, taskCount Task.buildingUid state.tasks uid ≤ 1

/-- A section takes no row away from under a launch, by hand or because a spawn
is refused its size. -/
def KeepsLaunched (state : JobState) : JobStep -> Prop
  | .refuseSize id _ _ =>
      ∀ job ∈ state.table.rows, job.id = id -> state.Unlaunched job.sandbox
  | .closeSandbox sandbox => state.Unlaunched sandbox
  | _ => True

section Step

variable {state next : JobState} {step : JobStep}

/-- No section but one that reserves a row adds a reservation. -/
theorem reservedUid_le_of_step
    (steps : state.Steps step next)
    (unspawned : ∀ id uid anonymous cmd, step ≠ .spawn id uid anonymous cmd)
    (unstarted : ∀ id cmd, step ≠ .startIn id cmd)
    (uid : String) :
    taskCount Task.reservedUid next.tasks uid ≤
      taskCount Task.reservedUid state.tasks uid := by
  have goes : ∀ {done after : Task} {rest : Multiset Task},
      state.Pending done rest ->
      (∀ id, after.reservedUid = some id -> done.reservedUid = some id) ->
      taskCount Task.reservedUid (after ::ₘ rest) uid ≤
        taskCount Task.reservedUid state.tasks uid :=
    fun pending same => pending.taskCount_next_le same uid
  have ends : ∀ {done : Task} {rest : Multiset Task},
      state.Pending done rest ->
      taskCount Task.reservedUid rest uid ≤
        taskCount Task.reservedUid state.tasks uid :=
    fun pending => pending.taskCount_le _ uid
  have fails : ∀ {done : Task} {rest : Multiset Task} (id : String)
      (origin : Sandbox) (owned : Bool), state.Pending done rest ->
      taskCount Task.reservedUid (failureTask id origin owned + rest) uid ≤
        taskCount Task.reservedUid state.tasks uid := by
    intro done rest id origin owned pending
    rw [taskCount_failureTask rfl]
    exact ends pending
  have taken : ∀ (jobs : JobState) (id : String),
      taskCount Task.reservedUid jobs.tasks uid ≤
        taskCount Task.reservedUid state.tasks uid ->
      taskCount Task.reservedUid (jobs.takeClosable id).tasks uid ≤
        taskCount Task.reservedUid state.tasks uid := by
    intro jobs id fewer
    obtain ⟨-, same⟩ | ⟨sandbox, -, same⟩ := jobs.takeClosable_cases id
    · rwa [same]
    · rw [same, taskCount_cons, if_neg (by
        simp [Task.reservedUid, Task.reservation])]
      exact fewer
  cases step with
  | spawn id fresh anonymous cmd => exact absurd rfl (unspawned _ _ _ _)
  | startIn id cmd => exact absurd rfl (unstarted _ _)
  | build id sandbox cmd =>
      obtain ⟨rest, pending, -, rfl⟩ := steps
      cases cmd with
      | none =>
          simp only [launchTask, zero_add]
          exact ends pending
      | some cmd => exact goes pending fun _ same => same
  | failBuild id sandbox cmd =>
      obtain ⟨rest, pending, rfl⟩ := steps
      exact ends pending
  | refuseSize id sandbox cmd =>
      obtain ⟨rest, given, -, -, rfl⟩ := steps
      exact Multiset.countP_le_of_le _ (rest_le_of_launchTask given)
  | waited id cmd origin =>
      obtain ⟨-, rest, pending, rfl⟩ := steps
      exact goes pending fun _ same => same
  | prepare id cmd origin owned =>
      obtain ⟨rest, pending, rfl⟩ := steps
      dsimp only
      split
      · exact goes pending fun _ same => same
      · exact fails id origin owned pending
  | launch id cmd origin sandbox owned pid plan =>
      obtain ⟨rest, pending, rfl⟩ := steps
      exact goes pending fun _ same => same
  | failLaunch id cmd origin sandbox owned tree cleared =>
      obtain ⟨rest, pending, rfl⟩ := steps
      exact fails id origin owned pending
  | publish id origin started killed =>
      obtain ⟨rest, pending, rfl⟩ := steps
      exact goes pending (by simp [Task.reservedUid, Task.reservation])
  | reportFailure id origin =>
      obtain ⟨rest, pending, rfl⟩ := steps
      exact taken _ id (ends pending)
  | reap id pid =>
      obtain ⟨rest, pending, ⟨job, started, -, -, -, rfl⟩ | ⟨-, rfl⟩⟩ := steps
      · exact goes pending (by simp [Task.reservedUid, Task.reservation])
      · exact ends pending
  | submit conclusion =>
      obtain ⟨rest, pending, rfl⟩ := steps
      exact ends pending
  | checkClose =>
      obtain ⟨id, retained, -, ⟨-, rfl⟩ | ⟨sandbox, -, -, ⟨-, rfl⟩ | ⟨-, rfl⟩⟩⟩ :=
        checkClose_cases steps <;> exact le_rfl
  | stop id force =>
      obtain ⟨job, -, -, rfl⟩ := steps
      split_ifs
      · exact taken _ id le_rfl
      · exact le_rfl
  | reclaim sandbox =>
      obtain ⟨rest, pending, rfl⟩ := steps
      exact ends pending
  | refuseSpawn | take | conclude | finish | reclaimConcluded | keep
  | closeSandbox | cancel | killAll | releaseAll =>
      simp only [Steps, closeSandbox] at steps
      grind

/-- A reservation is of the row its operation began with. -/
theorem owner_of_reservedUid
    {task : Task}
    {uid : String}
    (reserves : task.reservedUid = some uid) :
    ∃ id origin, task.owner = some (id, origin) ∧ origin.uid = uid := by
  obtain ⟨⟨id, origin⟩, reservation, rfl⟩ := Option.map_eq_some_iff.mp reserves
  refine ⟨id, origin, ?_, rfl⟩
  cases task with
  | building name sandbox cmd =>
      cases cmd with
      | none => contradiction
      | some cmd => exact reservation
  | waiting | preparing | launching | publishing => exact reservation
  | failing | watching | submitting | reclaiming => contradiction

/-- A row is reserved for at most one launch. -/
theorem reserved_of_step
    (formed : state.WellFormed)
    (own : state.FindsOwn)
    (sited : state.Sited)
    (steps : state.Steps step next) :
    ∀ job ∈ next.table.rows,
      taskCount Task.reservedUid next.tasks job.sandbox.uid ≤
        job.startingCount := by
  by_cases spawns : ∃ id uid anonymous cmd, step = .spawn id uid anonymous cmd
  · obtain ⟨id, uid, anonymous, cmd, rfl⟩ := spawns
    obtain ⟨counter, -, fresh, rfl⟩ := steps
    have unreserved : taskCount Task.reservedUid state.tasks uid = 0 := by
      refine Multiset.countP_eq_zero.mpr fun task member reserves => ?_
      obtain ⟨name, origin, owner, rfl⟩ := owner_of_reservedUid reserves
      exact fresh (formed.owned task member name origin owner).2
    intro job member
    rw [taskCount_cons]
    rcases List.mem_append.mp member with old | new
    · have apart : uid ≠ job.sandbox.uid := by
        rintro rfl
        exact fresh (formed.known job old)
      have reserved := sited.reserved job old
      cases cmd <;>
        simpa [Task.reservedUid, Task.reservation, apart] using reserved
    · obtain rfl := List.mem_singleton.mp new
      rw [show (Job.reserve id uid anonymous cmd).sandbox.uid = uid from rfl,
        unreserved]
      cases cmd <;>
        simp [Task.reservedUid, Task.reservation, Job.reserve, Job.startingCount]
  obtain ⟨rows, -⟩ := onRow_of_step formed steps
    fun id uid anonymous cmd same => spawns ⟨id, uid, anonymous, cmd, same⟩
  by_cases starts : ∃ id cmd, step = .startIn id cmd
  · obtain ⟨id, cmd, rfl⟩ := starts
    obtain ⟨row, found, -, -, idle, rfl⟩ := steps
    intro job member
    obtain ⟨before, beforeMember, rfl⟩ := List.mem_map.mp (rows.subset member)
    have reserved := sited.reserved before beforeMember
    rw [(JobStep.keeps_onRow _ before).2, taskCount_cons]
    by_cases named : before.id = id
    · obtain rfl : before = row := formed.eq_of_id beforeMember
        (JobTable.mem_of_find found)
        (named.trans (JobTable.find_some_id found).symm)
      simp only [Job.startingCount, idle, Bool.false_eq_true, if_false] at reserved
      simp only [JobStep.onRow, Job.named, named, if_true, Job.start,
        Job.startingCount]
      split_ifs <;> omega
    · have apart : row.sandbox.uid ≠ before.sandbox.uid := by
        intro same
        apply named
        rw [← formed.eq_of_uid (JobTable.mem_of_find found) beforeMember same]
        exact JobTable.find_some_id found
      simpa [JobStep.onRow, Job.named, named, Task.reservedUid, Task.reservation,
        apart] using reserved
  -- A section that clears a row's flag ends the only launch it is reserved for.
  have fewer := reservedUid_le_of_step steps
    (fun id uid anonymous cmd same => spawns ⟨id, uid, anonymous, cmd, same⟩)
    fun id cmd same => starts ⟨id, cmd, same⟩
  have ended : ∀ {done : Task} {rest others : Multiset Task} {id : String}
      {origin : Sandbox}, state.Pending done rest ->
      done.owner = some (id, origin) ->
      done.reservedUid = some origin.uid ->
      (∀ uid, taskCount Task.reservedUid others uid ≤
        taskCount Task.reservedUid rest uid) ->
      ∀ job ∈ state.table.rows, job.id = id ->
        taskCount Task.reservedUid others job.sandbox.uid = 0 := by
    intro done rest others id origin pending owner reserves less job member named
    have site := own done pending.self id origin owner job member named
    have reserved := sited.reserved job member
    have single : job.startingCount ≤ 1 := by
      rw [Job.startingCount]
      split_ifs <;> omega
    have goes := less job.sandbox.uid
    rw [pending, taskCount_cons, site, if_pos reserves] at reserved
    rw [site] at goes ⊢
    omega
  intro job member
  obtain ⟨row, rowMember, rfl⟩ := List.mem_map.mp (rows.subset member)
  have reserved := (fewer row.sandbox.uid).trans (sited.reserved row rowMember)
  rw [(JobStep.keeps_onRow _ row).2]
  by_cases same : (step.onRow row).starting = row.starting
  · rwa [Job.startingCount, same]
  · cases step with
    | failLaunch id cmd origin sandbox owned tree cleared =>
        obtain ⟨rest, pending, rfl⟩ := steps
        by_cases named : row.id = id
        · exact (ended pending rfl rfl
            (fun uid => (taskCount_failureTask rfl owned rest uid).le) row
            rowMember named).le.trans (Nat.zero_le _)
        · cases cleared <;> simp [JobStep.onRow, Job.named, named] at same
    | publish id origin started killed =>
        obtain ⟨rest, pending, rfl⟩ := steps
        by_cases named : row.id = id
        · refine (ended pending rfl rfl (fun uid => ?_) row rowMember
            named).le.trans (Nat.zero_le _)
          rw [taskCount_cons, if_neg (by simp [Task.reservedUid,
            Task.reservation]), add_zero]
        · simp [JobStep.onRow, Job.named, named] at same
    | startIn id cmd => exact absurd ⟨id, cmd, rfl⟩ starts
    | stop id force =>
        cases force <;> simp [JobStep.onRow, Job.named, Job.stop, Job.kill,
          Job.drain, apply_ite Job.starting] at same
    | build | reportFailure | reap | keep | killAll | releaseAll =>
        simp [JobStep.onRow, Job.named, Job.build, Job.drain, Job.reap, Job.keep,
          Job.kill, Job.release, apply_ite Job.starting] at same
    | spawn | refuseSpawn | failBuild | refuseSize | waited | prepare | launch
    | submit | take | conclude | finish | checkClose | reclaimConcluded
    | reclaim | closeSandbox | cancel => exact absurd rfl same

/-- A launch that forks or publishes a command did so before, or reads its row
now. -/
theorem launchOrigin_of_step
    (steps : state.Steps step next)
    {task : Task}
    (member : task ∈ next.tasks)
    {origin : Sandbox}
    (launches : task.launchOrigin = some origin) :
    (∃ old ∈ state.tasks, old.launchOrigin = some origin ∧
        (old.Located -> task.Located)) ∨
      ∃ id cmd owned job, step = .prepare id cmd origin owned ∧
        .preparing id cmd origin owned ∈ state.tasks ∧
        state.table.find id = some job ∧ job.built = true ∧
        task = .launching id cmd origin job.sandbox owned := by
  rcases tasks_of_step steps member with old | new
  · exact .inl ⟨task, old, launches, fun located => located⟩
  · cases step with
    | prepare id cmd began owned =>
        obtain ⟨old, ⟨job, found, built, rfl⟩ | rfl⟩ := new
        · obtain rfl := Option.some.inj launches
          exact .inr ⟨id, cmd, owned, job, rfl, old, found, built, rfl⟩
        · contradiction
    | launch id cmd began sandbox owned pid plan =>
        obtain ⟨old, rfl⟩ := new
        exact .inl ⟨_, old, launches, fun located => located⟩
    | spawn id uid anonymous cmd =>
        obtain rfl := new
        contradiction
    | build id sandbox cmd =>
        obtain ⟨-, given, -, rfl⟩ := new
        contradiction
    | startIn id cmd =>
        obtain ⟨job, -, rfl⟩ := new
        contradiction
    | waited id cmd began =>
        obtain ⟨-, rfl⟩ := new
        contradiction
    | failLaunch id cmd began sandbox owned tree cleared =>
        obtain ⟨-, rfl⟩ := new
        contradiction
    | publish id began started killed =>
        obtain rfl := new
        contradiction
    | reap id pid =>
        obtain ⟨-, job, started, -, -, rfl⟩ := new
        contradiction
    | reportFailure id began =>
        obtain ⟨job, -, -, rfl⟩ := new
        contradiction
    | stop id force =>
        obtain ⟨job, -, -, rfl⟩ := new
        contradiction
    | refuseSpawn | failBuild | refuseSize | submit | take | conclude | finish
    | checkClose | reclaimConcluded | keep | reclaim | closeSandbox | cancel
    | killAll | releaseAll => exact new.elim

/-- A launch works in the sandbox of the row it began with. -/
theorem located_of_step
    (own : state.FindsOwn)
    (sited : state.Sited)
    (steps : state.Steps step next) : ∀ task ∈ next.tasks, task.Located := by
  intro task member
  cases launches : task.launchOrigin with
  | none => cases task <;> trivial
  | some origin =>
      obtain ⟨old, oldMember, -, located⟩ |
        ⟨id, cmd, owned, job, rfl, began, found, -, rfl⟩ :=
        launchOrigin_of_step steps member launches
      · exact located (sited.located old oldMember)
      · exact own _ began id origin rfl job (JobTable.mem_of_find found)
          (JobTable.find_some_id found)

/-- A command runs in the sandbox of its row. -/
theorem sandbox_of_step
    (formed : state.WellFormed)
    (own : state.FindsOwn)
    (sited : state.Sited)
    (steps : state.Steps step next) :
    ∀ job ∈ next.table.rows, ∀ started, job.running = some started ->
      started.sandbox = job.sandbox := by
  intro job member started running
  by_cases spawns : ∃ id uid anonymous cmd, step = .spawn id uid anonymous cmd
  · obtain ⟨id, uid, anonymous, cmd, rfl⟩ := spawns
    obtain ⟨counter, -, -, rfl⟩ := steps
    rcases List.mem_append.mp member with old | new
    · exact sited.housed job old started running
    · obtain rfl := List.mem_singleton.mp new
      contradiction
  obtain ⟨rows, -⟩ := onRow_of_step formed steps
    fun id uid anonymous cmd same => spawns ⟨id, uid, anonymous, cmd, same⟩
  obtain ⟨row, rowMember, rfl⟩ := List.mem_map.mp (rows.subset member)
  rw [(JobStep.keeps_onRow _ row).2]
  rcases JobStep.running_onRow running with
    ⟨before, was, same, -⟩ | ⟨id, origin, published, killed, rfl, named, same, -⟩
  · rw [same]
    exact sited.housed row rowMember before was
  · obtain ⟨rest, pending, -⟩ := steps
    rw [same, own _ pending.self id origin rfl row rowMember named]
    exact sited.located _ pending.self

/-- A row that leaves the table is one that fails to be built, is idle, or is
closed by hand: no launch forks or publishes a command for it. -/
theorem unlaunched_of_removes
    (own : state.FindsOwn)
    (sited : state.Sited)
    (steps : state.Steps step next)
    (keeps : state.KeepsLaunched step)
    {row : Job}
    (member : row ∈ state.table.rows)
    (removes : state.Removes step row) : state.Unlaunched row.sandbox := by
  have idle : (step.onRow row).starting = row.starting ->
      (step.onRow row).Idle -> state.Unlaunched row.sandbox := by
    intro same quiet task taskMember origin launches uid
    have reserved := sited.reserved row member
    rw [Job.startingCount, ← same, quiet.2.1, if_neg Bool.false_ne_true]
      at reserved
    have counted : 0 < taskCount Task.reservedUid state.tasks row.sandbox.uid := by
      refine taskCount_pos taskMember ?_
      rw [← uid]
      cases task with
      | launching | publishing =>
          obtain rfl := Option.some.inj launches
          rfl
      | building | waiting | preparing | failing | watching | submitting
      | reclaiming => contradiction
    omega
  cases step with
  | failBuild id sandbox cmd =>
      obtain ⟨rest, pending, -⟩ := steps
      rw [own _ pending.self id sandbox rfl row member removes]
      exact (sited.unbuilt id sandbox cmd pending.self).2
  | refuseSize id sandbox cmd => exact keeps row member removes
  | reportFailure id origin =>
      refine idle ?_ removes.2
      simp [JobStep.onRow, Job.named, Job.drain, apply_ite Job.starting]
  | stop id force =>
      refine idle ?_ removes.2.2
      cases force <;> simp [JobStep.onRow, Job.named, Job.stop, Job.kill,
        Job.drain, apply_ite Job.starting]
  | checkClose => exact idle rfl removes.2.2
  | closeSandbox sandbox =>
      intro task taskMember origin launches uid
      exact keeps task taskMember origin launches (uid.trans removes)
  | spawn | refuseSpawn | build | startIn | waited | prepare | launch
  | failLaunch | publish | reap | submit | take | conclude | finish
  | reclaimConcluded | keep | reclaim | cancel | killAll | releaseAll =>
      exact removes.elim

/-- A launch that forks or publishes a command keeps its row. -/
theorem placed_of_step
    (formed : state.WellFormed)
    (own : state.FindsOwn)
    (sited : state.Sited)
    (steps : state.Steps step next)
    (keeps : state.KeepsLaunched step) :
    ∀ task ∈ next.tasks, ∀ origin, task.launchOrigin = some origin ->
      ∃ job ∈ next.table.rows, job.sandbox = origin := by
  intro task member origin launches
  by_cases spawns : ∃ id uid anonymous cmd, step = .spawn id uid anonymous cmd
  · obtain ⟨id, uid, anonymous, cmd, rfl⟩ := spawns
    obtain ⟨counter, -, -, rfl⟩ := steps
    rcases Multiset.mem_cons.mp member with rfl | old
    · contradiction
    · obtain ⟨job, jobMember, site⟩ := sited.placed task old origin launches
      exact ⟨job, List.mem_append_left _ jobMember, site⟩
  obtain ⟨-, stays⟩ := onRow_of_step formed steps
    fun id uid anonymous cmd same => spawns ⟨id, uid, anonymous, cmd, same⟩
  have remains : ∀ row ∈ state.table.rows, row.sandbox = origin ->
      (state.Removes step row -> False) ->
      ∃ job ∈ next.table.rows, job.sandbox = origin := by
    intro row rowMember site unremoved
    exact ⟨_, (stays row rowMember).resolve_right unremoved,
      ((JobStep.keeps_onRow _ row).2).trans site⟩
  obtain ⟨old, oldMember, same, -⟩ |
    ⟨id, cmd, owned, job, rfl, began, found, -, -⟩ :=
    launchOrigin_of_step steps member launches
  · obtain ⟨row, rowMember, site⟩ := sited.placed old oldMember origin same
    refine remains row rowMember site fun removes => ?_
    exact unlaunched_of_removes own sited steps keeps rowMember removes old
      oldMember origin same (by rw [site])
  · have rowMember := JobTable.mem_of_find found
    exact remains job rowMember (own _ began id origin rfl job rowMember
      (JobTable.find_some_id found)) fun removes => removes

/-- A row that is being built is not launched into. -/
theorem unbuilt_of_step
    (formed : state.WellFormed)
    (own : state.FindsOwn)
    (sited : state.Sited)
    (steps : state.Steps step next)
    {id : String}
    {sandbox : Sandbox}
    {cmd : Option String}
    (builds : Task.building id sandbox cmd ∈ next.tasks) :
    (∀ job ∈ next.table.rows, job.sandbox.uid = sandbox.uid ->
      job.built = false) ∧ next.Unlaunched sandbox := by
  rcases tasks_of_step steps builds with old | new
  · obtain ⟨unbuilt, unlaunched⟩ := sited.unbuilt id sandbox cmd old
    constructor
    · intro job member uid
      by_contra built
      obtain ⟨row, rowMember, site, was | ⟨built, given, rfl⟩⟩ :=
        built_of_step steps member (by simpa using built)
      · rw [unbuilt row rowMember (site ▸ uid)] at was
        contradiction
      -- Two spawns would be building for one uid.
      · obtain ⟨rest, pending, -, rfl⟩ := steps
        have same := own _ pending.self row.id built rfl row rowMember rfl
        have single := sited.building sandbox.uid
        have other : Task.building id sandbox cmd ∈ rest := by
          rcases Multiset.mem_add.mp builds with launch | old
          · cases given <;> simp [launchTask] at launch
          · exact old
        have counted : 0 < taskCount Task.buildingUid rest sandbox.uid :=
          taskCount_pos other rfl
        rw [pending, taskCount_cons, if_pos (by
          rw [Task.buildingUid, ← same, site, uid])] at single
        omega
    · intro task member origin launches uid
      obtain ⟨before, beforeMember, same, -⟩ |
        ⟨name, given, owned, job, rfl, began, found, built, -⟩ :=
        launchOrigin_of_step steps member launches
      · exact unlaunched before beforeMember origin same uid
      · have rowMember := JobTable.mem_of_find found
        have site := own _ began name origin rfl job rowMember
          (JobTable.find_some_id found)
        rw [unbuilt job rowMember (by rw [site, uid])] at built
        contradiction
  · cases step with
    | spawn name uid anonymous given =>
        obtain ⟨rfl, rfl, rfl⟩ := Task.building.inj new
        obtain ⟨counter, -, fresh, rfl⟩ := steps
        constructor
        · intro job member same
          rcases List.mem_append.mp member with old | added
          · have known := formed.known job old
            rw [same] at known
            exact absurd known fresh
          · obtain rfl := List.mem_singleton.mp added
            rfl
        · intro task member origin launches same
          rcases Multiset.mem_cons.mp member with rfl | old
          · contradiction
          · have issued : origin.uid ∈ state.issued := by
              obtain ⟨job, jobMember, rfl⟩ :=
                sited.placed task old origin launches
              exact formed.known job jobMember
            rw [same] at issued
            exact fresh issued
    | build | startIn | waited | prepare | launch | failLaunch | publish | reap
    | reportFailure | stop => simp [Starts] at new
    | refuseSpawn | failBuild | refuseSize | submit | take | conclude | finish
    | checkClose | reclaimConcluded | keep | reclaim | closeSandbox | cancel
    | killAll | releaseAll => exact new.elim

/-- Every section keeps launches and rows together. -/
theorem Sited.of_step
    (formed : state.WellFormed)
    (own : state.FindsOwn)
    (sited : state.Sited)
    (steps : state.Steps step next)
    (keeps : state.KeepsLaunched step) : next.Sited where
  reserved := reserved_of_step formed own sited steps
  located := located_of_step own sited steps
  housed := sandbox_of_step formed own sited steps
  placed := placed_of_step formed own sited steps keeps
  unbuilt _ _ _ builds := unbuilt_of_step formed own sited steps builds
  building := building_of_step formed sited.building steps

/-- Removing rows that are not launched into and dropping operations keeps
launches and rows together. -/
theorem Sited.of_fewer
    (sited : state.Sited)
    (rows : next.table.rows.Sublist state.table.rows)
    (tasks : next.tasks ≤ state.tasks)
    (stays : ∀ job ∈ state.table.rows,
      job ∈ next.table.rows ∨ state.Unlaunched job.sandbox) : next.Sited where
  reserved job member :=
    (Multiset.countP_le_of_le _ tasks).trans
      (sited.reserved job (rows.subset member))
  located task member := sited.located task (Multiset.mem_of_le tasks member)
  housed job member := sited.housed job (rows.subset member)
  placed task member origin launches := by
    have old := Multiset.mem_of_le tasks member
    obtain ⟨job, jobMember, site⟩ := sited.placed task old origin launches
    refine ⟨job, (stays job jobMember).resolve_right fun unlaunched => ?_, site⟩
    exact unlaunched task old origin launches (by rw [site])
  unbuilt id sandbox cmd builds := by
    obtain ⟨unbuilt, unlaunched⟩ :=
      sited.unbuilt id sandbox cmd (Multiset.mem_of_le tasks builds)
    exact ⟨fun job member => unbuilt job (rows.subset member),
      fun task member => unlaunched task (Multiset.mem_of_le tasks member)⟩
  building uid := (Multiset.countP_le_of_le _ tasks).trans (sited.building uid)

end Step

/-- The machine starts with nothing launched. -/
theorem Sited.empty : JobState.empty.Sited where
  reserved _ member := absurd member List.not_mem_nil
  located _ member := absurd member (Multiset.notMem_zero _)
  housed _ member := absurd member List.not_mem_nil
  placed _ member := absurd member (Multiset.notMem_zero _)
  unbuilt _ _ _ builds := absurd builds (Multiset.notMem_zero _)
  building _ := Nat.zero_le 1

end JobState

end Shellmux
end Marsh
