import Marsh.Shellmux.JobCounts

/-!
# What a section can do

One inversion lemma for each part of the job machine: its rows, the commands in
flight, the conclusions a job owes.  From them, what holds of every reachable
state whatever the interleaving.
-/

namespace Marsh
namespace Shellmux

open Library

/-! ## Changes of a row -/

/-- A change that keeps the name and the sandbox of a row. -/
def Job.Keeps (change : Job -> Job) : Prop :=
  ∀ job, (change job).id = job.id ∧ (change job).sandbox = job.sandbox

namespace Job

theorem keeps_self : Keeps fun job => job := fun _ => ⟨rfl, rfl⟩

theorem keeps_build : Keeps build := fun _ => ⟨rfl, rfl⟩

theorem keeps_start : Keeps start := fun _ => ⟨rfl, rfl⟩

theorem keeps_clear : Keeps clear := fun _ => ⟨rfl, rfl⟩

theorem keeps_reap : Keeps reap := fun _ => ⟨rfl, rfl⟩

theorem keeps_drain : Keeps drain := fun _ => ⟨rfl, rfl⟩

theorem keeps_release : Keeps release := fun _ => ⟨rfl, rfl⟩

theorem keeps_publish (started : StartedCmd) (killed : Bool) :
    Keeps (publish started killed) := by
  intro job
  unfold publish
  split_ifs <;> exact ⟨rfl, rfl⟩

theorem keeps_stop (force : Bool) : Keeps (stop force) := by
  intro job
  cases force <;> exact ⟨rfl, rfl⟩

theorem keeps_keep : Keeps keep := by
  intro job
  unfold keep
  split_ifs <;> exact ⟨rfl, rfl⟩

theorem Keeps.onName {change : Job -> Job} (keeps : Keeps change) (id : String) :
    Keeps fun job => if job.id = id then change job else job := by
  intro job
  dsimp only
  split_ifs
  · exact keeps job
  · exact ⟨rfl, rfl⟩

theorem keeps_killable (killable : String -> Bool) :
    Keeps fun job => if killable job.id then job.kill else job := by
  intro job
  dsimp only
  split_ifs <;> exact ⟨rfl, rfl⟩

/-! ### The running command -/

@[simp] theorem command_build (job : Job) : job.build.command = job.command :=
  rfl

@[simp] theorem command_start (job : Job) : job.start.command = job.command :=
  rfl

@[simp] theorem command_clear (job : Job) : job.clear.command = job.command :=
  rfl

@[simp] theorem command_reap (job : Job) : job.reap.command = none := rfl

@[simp] theorem command_drain (job : Job) : job.drain.command = job.command :=
  rfl

@[simp] theorem command_release (job : Job) :
    job.release.command = job.command := rfl

@[simp] theorem command_kill (job : Job) : job.kill.command = job.command := by
  cases running : job.running <;> simp [command, kill, running]

@[simp] theorem command_stop (force : Bool) (job : Job) :
    (job.stop force).command = job.command := by
  cases force
  · rfl
  · exact command_kill job

@[simp] theorem command_keep (job : Job) : job.keep.command = job.command := by
  unfold keep
  split_ifs <;> rfl

@[simp] theorem command_publish
    (started : StartedCmd)
    (killed : Bool)
    (job : Job) :
    (job.publish started killed).command = some (job.id, started.sandbox) := by
  unfold publish
  split_ifs <;> rfl

/-! ### What a row runs -/

/-- What a row ran, it runs, unless it was taken off; a kill flags it. -/
def Continues (job after : Job) : Prop :=
  ∀ started, after.running = some started ->
    ∃ before, job.running = some before ∧ before.sandbox = started.sandbox ∧
      (before.forceStopped = true -> started.forceStopped = true)

theorem Continues.of_running_eq
    {job after : Job}
    (same : after.running = job.running) : job.Continues after :=
  fun started running => ⟨started, same ▸ running, rfl, fun flagged => flagged⟩

theorem continues_kill (job : Job) : job.Continues job.kill := by
  intro started running
  obtain ⟨before, was, rfl⟩ := Option.map_eq_some_iff.mp running
  exact ⟨before, was, rfl, fun _ => rfl⟩

theorem continues_stop (force : Bool) (job : Job) :
    job.Continues (job.stop force) := by
  cases force
  · exact .of_running_eq rfl
  · exact job.continues_kill

theorem continues_keep (job : Job) : job.Continues job.keep := by
  refine .of_running_eq ?_
  unfold Job.keep
  split_ifs <;> rfl

theorem continues_reap (job : Job) : job.Continues job.reap := by
  rintro started ⟨⟩

end Job

namespace JobTable

/-- A change of one row leaves the command of the others. -/
theorem exists_command_of_update
    {table : JobTable}
    {id : String}
    {change : Job -> Job}
    {command : String × Sandbox}
    (holds : ∃ job ∈ (table.update id change).rows, job.command = some command) :
    (∃ job ∈ table.rows, job.command = some command) ∨
      ∃ job ∈ table.rows, job.id = id ∧ (change job).command = some command := by
  obtain ⟨_, member, held⟩ := holds
  obtain ⟨job, rowMember, rfl⟩ := List.mem_map.mp member
  split_ifs at held with named
  · exact .inr ⟨job, rowMember, named, held⟩
  · exact .inl ⟨job, rowMember, held⟩

/-- A change of rows that keeps their commands adds none. -/
theorem exists_command_of_change
    {table : JobTable}
    {change : Job -> Job}
    {command : String × Sandbox}
    (keeps : ∀ job, (change job).command = job.command)
    (holds : ∃ job ∈ (table.change change).rows, job.command = some command) :
    ∃ job ∈ table.rows, job.command = some command := by
  obtain ⟨_, member, held⟩ := holds
  obtain ⟨job, rowMember, rfl⟩ := List.mem_map.mp member
  exact ⟨job, rowMember, (keeps job).symm.trans held⟩

theorem exists_command_of_update_of_keeps
    {table : JobTable}
    {id : String}
    {change : Job -> Job}
    {command : String × Sandbox}
    (keeps : ∀ job, (change job).command = job.command)
    (holds : ∃ job ∈ (table.update id change).rows, job.command = some command) :
    ∃ job ∈ table.rows, job.command = some command := by
  refine exists_command_of_change (fun job => ?_) holds
  split_ifs
  · exact keeps job
  · rfl

theorem rows_remove_sublist (table : JobTable) (removed : Job -> Bool) :
    (table.remove removed).rows.Sublist table.rows :=
  List.eraseP_sublist

theorem exists_command_of_remove
    {table : JobTable}
    {removed : Job -> Bool}
    {command : String × Sandbox}
    (holds : ∃ job ∈ (table.remove removed).rows, job.command = some command) :
    ∃ job ∈ table.rows, job.command = some command := by
  obtain ⟨job, member, held⟩ := holds
  exact ⟨job, (table.rows_remove_sublist removed).subset member, held⟩

theorem rows_of_takeClosable
    {table taken : JobTable}
    {id : String}
    {sandbox : Sandbox}
    (takes : table.takeClosable id = some (sandbox, taken)) :
    taken = table.remove (closable id) := by
  obtain ⟨job, -, pair⟩ := Option.map_eq_some_iff.mp takes
  exact (Prod.mk.inj pair).2.symm

end JobTable

/-- The operation in progress whose section this is. -/
def JobStep.consumes : JobStep -> Option Task
  | .build id sandbox cmd | .failBuild id sandbox cmd =>
      some (.building id sandbox cmd)
  | .refuseSize id sandbox cmd =>
      cmd.map fun cmd => .preparing id cmd sandbox true
  | .waited id cmd origin => some (.waiting id cmd origin)
  | .prepare id cmd origin owned => some (.preparing id cmd origin owned)
  | .launch id cmd origin sandbox owned _ _
  | .failLaunch id cmd origin sandbox owned _ _ =>
      some (.launching id cmd origin sandbox owned)
  | .publish id origin started _ => some (.publishing id origin started)
  | .reportFailure id origin => some (.failing id origin)
  | .reap id pid => some (.watching id pid)
  | .submit conclusion => some (.submitting conclusion)
  | .reclaim sandbox => some (.reclaiming sandbox)
  | _ => none

namespace JobState

/-! ## Taking a closable row -/

theorem takeClosable_cases (state : JobState) (id : String) :
    (state.table.takeClosable id = none ∧ state.takeClosable id = state) ∨
      ∃ sandbox,
        state.table.takeClosable id =
            some (sandbox, state.table.remove (JobTable.closable id)) ∧
          state.takeClosable id =
            { state with
              table := state.table.remove (JobTable.closable id)
              tasks := .reclaiming sandbox ::ₘ state.tasks } := by
  unfold takeClosable
  cases takes : state.table.takeClosable id with
  | none => exact .inl ⟨rfl, rfl⟩
  | some taken =>
      obtain ⟨sandbox, table⟩ := taken
      obtain rfl := JobTable.rows_of_takeClosable takes
      exact .inr ⟨sandbox, rfl, rfl⟩

/-- What the close check after a conclusion does. -/
theorem checkClose_cases
    {state next : JobState}
    (steps : state.Steps .checkClose next) :
    ∃ id retained, state.concluder = .closing id retained ∧
      (((state.queue.idle id = true -> state.table.takeClosable id = none) ∧
          next = { state with concluder := .taking }) ∨
        ∃ sandbox, state.queue.idle id = true ∧
          state.table.takeClosable id =
            some (sandbox, state.table.remove (JobTable.closable id)) ∧
          ((retained = true ∧ next =
              { state with
                table := state.table.remove (JobTable.closable id)
                concluder := .taking
                retained := sandbox.uid :: state.retained }) ∨
            retained = false ∧ next =
              { state with
                table := state.table.remove (JobTable.closable id)
                concluder := .reclaiming sandbox })) := by
  obtain ⟨id, retained, closing, changed⟩ := steps
  refine ⟨id, retained, closing, ?_⟩
  by_cases idle : state.queue.idle id = true
  · rw [if_pos idle] at changed
    cases takes : state.table.takeClosable id with
    | none =>
        rw [takes] at changed
        exact .inl ⟨fun _ => rfl, changed⟩
    | some taken =>
        obtain ⟨sandbox, table⟩ := taken
        obtain rfl := JobTable.rows_of_takeClosable takes
        rw [takes] at changed
        refine .inr ⟨sandbox, idle, rfl, ?_⟩
        cases retained
        · exact .inr ⟨rfl, changed⟩
        · exact .inl ⟨rfl, changed⟩
  · rw [if_neg idle] at changed
    exact .inl ⟨fun isIdle => absurd isIdle idle, changed⟩

/-! ## Rows -/

theorem rows_takeClosable_sublist (state : JobState) (id : String) :
    (state.takeClosable id).table.rows.Sublist state.table.rows := by
  obtain ⟨-, same⟩ | ⟨sandbox, -, same⟩ := state.takeClosable_cases id
  · rw [same]
  · rw [same]
    exact state.table.rows_remove_sublist _

/-- But for the row a spawn reserves, a section changes rows without touching
their names and sandboxes, or removes some. -/
theorem rows_of_step
    {state next : JobState}
    {step : JobStep}
    (steps : state.Steps step next) :
    (∃ id uid anonymous cmd, step = .spawn id uid anonymous cmd ∧
        state.table.find id = none ∧ uid ∉ state.issued ∧
        next.table.rows =
          state.table.rows ++ [Job.reserve id uid anonymous cmd] ∧
        next.issued = uid :: state.issued) ∨
      next.issued = state.issued ∧
        ∃ change, Job.Keeps change ∧
          next.table.rows.Sublist (state.table.rows.map change) := by
  have kept : ∀ rows : List Job, rows.Sublist state.table.rows ->
      ∃ change, Job.Keeps change ∧
        rows.Sublist (state.table.rows.map change) := fun rows sublist =>
    ⟨id, fun _ => ⟨rfl, rfl⟩, by rwa [List.map_id]⟩
  have updated : ∀ (id : String) {change : Job -> Job}, Job.Keeps change ->
      ∀ rows : List Job, rows.Sublist (state.table.update id change).rows ->
      ∃ change, Job.Keeps change ∧
        rows.Sublist (state.table.rows.map change) :=
    fun id change keeps rows sublist => ⟨_, keeps.onName id, sublist⟩
  cases step with
  | spawn id uid anonymous cmd =>
      obtain ⟨counter, names, fresh, rfl⟩ := steps
      exact .inl ⟨id, uid, anonymous, cmd, rfl, names.1, fresh, rfl, rfl⟩
  | refuseSpawn id anonymous =>
      obtain ⟨counter, -, rfl⟩ := steps
      exact .inr ⟨rfl, kept _ (List.Sublist.refl _)⟩
  | build id sandbox cmd =>
      obtain ⟨rest, -, -, rfl⟩ := steps
      exact .inr ⟨rfl, updated id Job.keeps_build _ (List.Sublist.refl _)⟩
  | failBuild id sandbox cmd =>
      obtain ⟨rest, -, rfl⟩ := steps
      exact .inr ⟨rfl, kept _ (state.table.rows_remove_sublist _)⟩
  | refuseSize id sandbox cmd =>
      obtain ⟨rest, -, -, -, rfl⟩ := steps
      exact .inr ⟨rfl, kept _ (state.table.rows_remove_sublist _)⟩
  | startIn id cmd =>
      obtain ⟨job, -, -, -, -, rfl⟩ := steps
      exact .inr ⟨rfl, updated id Job.keeps_start _ (List.Sublist.refl _)⟩
  | waited id cmd origin =>
      obtain ⟨-, rest, -, rfl⟩ := steps
      exact .inr ⟨rfl, kept _ (List.Sublist.refl _)⟩
  | prepare id cmd origin owned =>
      obtain ⟨rest, -, rfl⟩ := steps
      exact .inr ⟨rfl, kept _ (List.Sublist.refl _)⟩
  | launch id cmd origin sandbox owned pid plan =>
      obtain ⟨rest, -, rfl⟩ := steps
      exact .inr ⟨rfl, kept _ (List.Sublist.refl _)⟩
  | failLaunch id cmd origin sandbox owned tree cleared =>
      obtain ⟨rest, -, rfl⟩ := steps
      cases cleared
      · exact .inr ⟨rfl, kept _ (List.Sublist.refl _)⟩
      · exact .inr ⟨rfl, updated id Job.keeps_clear _ (List.Sublist.refl _)⟩
  | publish id origin started killed =>
      obtain ⟨rest, -, rfl⟩ := steps
      exact .inr ⟨rfl, updated id (Job.keeps_publish started killed) _
        (List.Sublist.refl _)⟩
  | reportFailure id origin =>
      obtain ⟨rest, -, rfl⟩ := steps
      refine .inr ⟨?_, updated id Job.keeps_drain _
        (rows_takeClosable_sublist _ _)⟩
      obtain ⟨-, same⟩ | ⟨sandbox, -, same⟩ := takeClosable_cases _ id <;>
        rw [same]
  | reap id pid =>
      obtain ⟨rest, -, ⟨job, started, -, -, -, rfl⟩ | ⟨-, rfl⟩⟩ := steps
      · exact .inr ⟨rfl, updated id Job.keeps_reap _ (List.Sublist.refl _)⟩
      · exact .inr ⟨rfl, kept _ (List.Sublist.refl _)⟩
  | submit conclusion =>
      obtain ⟨rest, -, rfl⟩ := steps
      exact .inr ⟨rfl, kept _ (List.Sublist.refl _)⟩
  | take =>
      obtain ⟨conclusion, rest, -, -, rfl⟩ := steps
      exact .inr ⟨rfl, kept _ (List.Sublist.refl _)⟩
  | conclude retained =>
      obtain ⟨conclusion, -, rfl⟩ := steps
      exact .inr ⟨rfl, kept _ (List.Sublist.refl _)⟩
  | finish =>
      obtain ⟨id, retained, -, rfl⟩ := steps
      exact .inr ⟨rfl, kept _ (List.Sublist.refl _)⟩
  | checkClose =>
      obtain ⟨id, retained, -, ⟨-, rfl⟩ | ⟨sandbox, -, -, ⟨-, rfl⟩ | ⟨-, rfl⟩⟩⟩ :=
        checkClose_cases steps
      · exact .inr ⟨rfl, kept _ (List.Sublist.refl _)⟩
      · exact .inr ⟨rfl, kept _ (state.table.rows_remove_sublist _)⟩
      · exact .inr ⟨rfl, kept _ (state.table.rows_remove_sublist _)⟩
  | reclaimConcluded =>
      obtain ⟨sandbox, -, rfl⟩ := steps
      exact .inr ⟨rfl, kept _ (state.table.rows_remove_sublist _)⟩
  | keep id =>
      obtain rfl := steps
      exact .inr ⟨rfl, updated id Job.keeps_keep _ (List.Sublist.refl _)⟩
  | stop id force =>
      obtain ⟨job, -, -, changed⟩ := steps
      by_cases idle : state.queue.idle id = true
      · rw [if_pos idle] at changed
        rw [changed]
        refine .inr ⟨?_, updated id (Job.keeps_stop force) _
          (rows_takeClosable_sublist _ _)⟩
        obtain ⟨-, same⟩ | ⟨sandbox, -, same⟩ := takeClosable_cases _ id <;>
          rw [same] <;> rfl
      · rw [if_neg idle] at changed
        rw [changed]
        exact .inr ⟨rfl, updated id (Job.keeps_stop force) _
          (List.Sublist.refl _)⟩
  | reclaim sandbox =>
      obtain ⟨rest, -, rfl⟩ := steps
      exact .inr ⟨rfl, kept _ (state.table.rows_remove_sublist _)⟩
  | closeSandbox sandbox =>
      obtain rfl := steps
      exact .inr ⟨rfl, kept _ (state.table.rows_remove_sublist _)⟩
  | cancel =>
      obtain rfl := steps
      exact .inr ⟨rfl, kept _ (List.Sublist.refl _)⟩
  | killAll killable =>
      obtain rfl := steps
      exact .inr ⟨rfl, _, Job.keeps_killable killable, List.Sublist.refl _⟩
  | releaseAll =>
      obtain rfl := steps
      exact .inr ⟨rfl, _, Job.keeps_release, List.Sublist.refl _⟩

section Rows

variable {state next : JobState} {step : JobStep}

/-- A row of the next state is what the section made of a row of this one. -/
theorem row_of_step
    (steps : state.Steps step next)
    {job : Job}
    (member : job ∈ next.table.rows) :
    (∃ row ∈ state.table.rows, row.id = job.id ∧ row.Continues job ∧
        ∀ id, step = .stop id true -> row.id = id -> job = row.stop true) ∨
      job.running = none ∨
      ∃ id origin started killed, ∃ row ∈ state.table.rows,
        step = .publish id origin started killed ∧ row.id = id ∧
          job = row.publish started killed := by
  have kept : (∀ id, step ≠ .stop id true) -> job ∈ state.table.rows ->
      (∃ row ∈ state.table.rows, row.id = job.id ∧ row.Continues job ∧
        ∀ id, step = .stop id true -> row.id = id -> job = row.stop true) ∨
      job.running = none ∨
      ∃ id origin started killed, ∃ row ∈ state.table.rows,
        step = .publish id origin started killed ∧ row.id = id ∧
          job = row.publish started killed :=
    fun other old => .inl ⟨job, old, rfl, .of_running_eq rfl,
      fun id stops => absurd stops (other id)⟩
  have changed : (∀ id, step ≠ .stop id true) ->
      ∀ {change : Job -> Job}, Job.Keeps change ->
        (∀ row, Job.Continues row (change row)) ->
        job ∈ state.table.rows.map change ->
        (∃ row ∈ state.table.rows, row.id = job.id ∧ row.Continues job ∧
          ∀ id, step = .stop id true -> row.id = id -> job = row.stop true) ∨
        job.running = none ∨
        ∃ id origin started killed, ∃ row ∈ state.table.rows,
          step = .publish id origin started killed ∧ row.id = id ∧
            job = row.publish started killed := by
    intro other change keeps continues changedMember
    obtain ⟨row, rowMember, rfl⟩ := List.mem_map.mp changedMember
    exact .inl ⟨row, rowMember, (keeps row).1.symm, continues row,
      fun id stops => absurd stops (other id)⟩
  have onName : ∀ {change : Job -> Job} (id : String),
      (∀ row, Job.Continues row (change row)) ->
      ∀ row : Job, row.Continues (if row.id = id then change row else row) := by
    intro change id continues row
    split_ifs
    · exact continues row
    · exact .of_running_eq rfl
  have removed : ∀ {gone : Job -> Bool},
      job ∈ (state.table.remove gone).rows -> job ∈ state.table.rows :=
    fun old => (state.table.rows_remove_sublist _).subset old
  cases step with
  | spawn id uid anonymous cmd =>
      obtain ⟨counter, -, -, rfl⟩ := steps
      rcases List.mem_append.mp member with old | new
      · exact kept (by simp) old
      · obtain rfl := List.mem_singleton.mp new
        exact .inr (.inl rfl)
  | build id sandbox cmd =>
      obtain ⟨rest, -, -, rfl⟩ := steps
      exact changed (by simp) (Job.keeps_build.onName id)
        (onName id fun _ => .of_running_eq rfl) member
  | startIn id cmd =>
      obtain ⟨row, -, -, -, -, rfl⟩ := steps
      exact changed (by simp) (Job.keeps_start.onName id)
        (onName id fun _ => .of_running_eq rfl) member
  | failLaunch id cmd origin sandbox owned tree cleared =>
      obtain ⟨rest, -, rfl⟩ := steps
      cases cleared
      · exact kept (by simp) member
      · exact changed (by simp) (Job.keeps_clear.onName id)
          (onName id fun _ => .of_running_eq rfl) member
  | publish id origin started killed =>
      obtain ⟨rest, -, rfl⟩ := steps
      obtain ⟨row, rowMember, rfl⟩ := List.mem_map.mp member
      split_ifs with named
      · exact .inr (.inr ⟨id, origin, started, killed, row, rowMember, rfl,
          named, rfl⟩)
      · exact .inl ⟨row, rowMember, rfl, .of_running_eq rfl, by simp⟩
  | reportFailure id origin =>
      obtain ⟨rest, -, rfl⟩ := steps
      exact changed (by simp) (Job.keeps_drain.onName id)
        (onName id fun _ => .of_running_eq rfl)
        ((rows_takeClosable_sublist _ _).subset member)
  | reap id pid =>
      obtain ⟨rest, -, ⟨row, started, -, -, -, rfl⟩ | ⟨-, rfl⟩⟩ := steps
      · exact changed (by simp) (Job.keeps_reap.onName id)
          (onName id Job.continues_reap) member
      · exact kept (by simp) member
  | checkClose =>
      obtain ⟨id, retained, -, ⟨-, rfl⟩ | ⟨sandbox, -, -, ⟨-, rfl⟩ | ⟨-, rfl⟩⟩⟩ :=
        checkClose_cases steps
      · exact kept (by simp) member
      · exact kept (by simp) (removed member)
      · exact kept (by simp) (removed member)
  | keep id =>
      obtain rfl := steps
      exact changed (by simp) (Job.keeps_keep.onName id)
        (onName id Job.continues_keep) member
  | stop id force =>
      obtain ⟨row, -, -, accepted⟩ := steps
      have stopped : job ∈ (state.acceptStop id force row.sandbox).table.rows := by
        split_ifs at accepted
        · rw [accepted] at member
          exact (rows_takeClosable_sublist _ _).subset member
        · rwa [accepted] at member
      obtain ⟨old, oldMember, rfl⟩ := List.mem_map.mp stopped
      refine .inl ⟨old, oldMember,
        ((Job.keeps_stop force).onName id old).1.symm,
        onName id (Job.continues_stop force) old, ?_⟩
      rintro _ ⟨⟩ named
      exact if_pos named
  | killAll killable =>
      obtain rfl := steps
      refine changed (by simp) (Job.keeps_killable killable) (fun row => ?_)
        member
      split_ifs
      · exact row.continues_kill
      · exact .of_running_eq rfl
  | releaseAll =>
      obtain rfl := steps
      exact changed (by simp) Job.keeps_release
        (fun _ => .of_running_eq rfl) member
  | failBuild id sandbox cmd =>
      obtain ⟨rest, -, rfl⟩ := steps
      exact kept (by simp) (removed member)
  | refuseSize id sandbox cmd =>
      obtain ⟨rest, -, -, -, rfl⟩ := steps
      exact kept (by simp) (removed member)
  | reclaimConcluded =>
      obtain ⟨sandbox, -, rfl⟩ := steps
      exact kept (by simp) (removed member)
  | reclaim sandbox =>
      obtain ⟨rest, -, rfl⟩ := steps
      exact kept (by simp) (removed member)
  | closeSandbox sandbox =>
      obtain rfl := steps
      exact kept (by simp) (removed member)
  | refuseSpawn | waited | prepare | launch | submit | take | conclude | finish
  | cancel =>
      refine kept (by simp) ?_
      simp only [Steps] at steps
      grind

end Rows

/-! ## Operations -/

section Operations

variable {state next : JobState}

theorem Pending.of_rest
    {task other : Task}
    {rest : Multiset Task}
    (pending : state.Pending task rest)
    (member : other ∈ rest) : other ∈ state.tasks := by
  rw [pending]
  exact Multiset.mem_cons_of_mem member

theorem Pending.self
    {task : Task}
    {rest : Multiset Task}
    (pending : state.Pending task rest) : task ∈ state.tasks := by
  rw [pending]
  exact Multiset.mem_cons_self task rest

/-- An operation that is done counts for nothing any more. -/
theorem Pending.taskCount_le
    {done : Task}
    {rest : Multiset Task}
    (pending : state.Pending done rest)
    (name : Task -> Option String)
    (id : String) : taskCount name rest id ≤ taskCount name state.tasks id := by
  rw [pending, taskCount_cons]
  omega

/-- An operation that goes on counts for what it did. -/
theorem Pending.taskCount_next_le
    {done after : Task}
    {rest : Multiset Task}
    (pending : state.Pending done rest)
    {name : Task -> Option String}
    (same : ∀ id, name after = some id -> name done = some id)
    (id : String) :
    taskCount name (after ::ₘ rest) id ≤ taskCount name state.tasks id := by
  rw [pending, taskCount_cons, taskCount_cons]
  by_cases named : name after = some id
  · rw [if_pos named, if_pos (same id named)]
  · rw [if_neg named]
    omega

/-- A launch that failed does not count any more. -/
theorem taskCount_failureTask
    {name : Task -> Option String}
    {job : String}
    {origin : Sandbox}
    (uncounted : name (.failing job origin) = none)
    (owned : Bool)
    (rest : Multiset Task)
    (id : String) :
    taskCount name (failureTask job origin owned + rest) id =
      taskCount name rest id := by
  cases owned
  · rw [failureTask, if_neg Bool.false_ne_true, zero_add]
  · rw [failureTask, if_pos rfl, Multiset.singleton_add, taskCount_cons,
      if_neg (by simp [uncounted]), add_zero]

/-- A launch given up before it began leaves the other operations. -/
theorem rest_le_of_launchTask
    {id : String}
    {origin : Sandbox}
    {cmd : Option String}
    {rest : Multiset Task}
    (given : state.tasks = launchTask id origin cmd + rest) :
    rest ≤ state.tasks := by
  rw [given]
  exact Multiset.le_add_left rest _

/-- The operation a section leaves in progress. -/
def Starts (state : JobState) (step : JobStep) (task : Task) : Prop :=
  match step with
  | .spawn id uid _ cmd => task = .building id ⟨id, uid⟩ cmd
  | .build id sandbox cmd =>
      .building id sandbox cmd ∈ state.tasks ∧
        ∃ given, cmd = some given ∧ task = .preparing id given sandbox true
  | .startIn id cmd =>
      ∃ job, state.table.find id = some job ∧
        task = .waiting id cmd job.sandbox
  | .waited id cmd origin =>
      .waiting id cmd origin ∈ state.tasks ∧
        task = .preparing id cmd origin false
  | .prepare id cmd origin owned =>
      .preparing id cmd origin owned ∈ state.tasks ∧
        ((∃ job, state.table.find id = some job ∧ job.built = true ∧
            task = .launching id cmd origin job.sandbox owned) ∨
          task = .failing id origin)
  | .launch id cmd origin sandbox owned pid _ =>
      .launching id cmd origin sandbox owned ∈ state.tasks ∧
        task = .publishing id origin
          { pid, sandbox, cmd, forceStopped := false }
  | .failLaunch id cmd origin sandbox owned _ _ =>
      .launching id cmd origin sandbox owned ∈ state.tasks ∧
        task = .failing id origin
  | .publish id _ started _ => task = .watching id started.pid
  | .reap id pid =>
      .watching id pid ∈ state.tasks ∧
        ∃ job started, state.table.find id = some job ∧
          job.running = some started ∧ task = .submitting ⟨id, started⟩
  | .reportFailure id _ | .stop id _ =>
      ∃ job ∈ state.table.rows, job.id = id ∧ task = .reclaiming job.sandbox
  | _ => False

/-- What the row a closable job is taken from was before. -/
theorem exists_row_of_takeClosable
    {change : Job -> Job}
    (keeps : Job.Keeps change)
    {id : String}
    {table : JobTable}
    {sandbox : Sandbox}
    (takes : (table.change change).takeClosable id =
      some (sandbox, (table.change change).remove (JobTable.closable id))) :
    ∃ job ∈ table.rows, job.id = id ∧ job.sandbox = sandbox ∧
      (change job).running = none ∧ (change job).starting = false ∧
      (change job).close.isSome := by
  obtain ⟨taken, found, pair⟩ := Option.map_eq_some_iff.mp takes
  obtain ⟨job, member, rfl⟩ := List.mem_map.mp (List.mem_of_find?_eq_some found)
  have holds := List.find?_some found
  simp only [JobTable.closable, Bool.and_eq_true, decide_eq_true_eq,
    Option.isNone_iff_eq_none, Bool.not_eq_true'] at holds
  obtain ⟨⟨⟨named, closing⟩, quiet⟩, unreserved⟩ := holds
  refine ⟨job, member, (keeps job).1.symm.trans named, ?_, quiet, unreserved,
    closing⟩
  rw [← (keeps job).2]
  exact (Prod.mk.inj pair).1

/-- The operations in progress were so before, but for what the section
starts. -/
theorem tasks_le_of_step
    {step : JobStep}
    (steps : state.Steps step next) :
    ∃ started : Multiset Task, next.tasks ≤ started + state.tasks ∧
      ∀ task ∈ started, state.Starts step task := by
  have same : next.tasks ≤ state.tasks ->
      ∃ started : Multiset Task, next.tasks ≤ started + state.tasks ∧
        ∀ task ∈ started, state.Starts step task :=
    fun fewer => ⟨0, by simpa using fewer, by simp⟩
  have one : ∀ task, state.Starts step task ->
      next.tasks ≤ task ::ₘ state.tasks ->
      ∃ started : Multiset Task, next.tasks ≤ started + state.tasks ∧
        ∀ task ∈ started, state.Starts step task :=
    fun task starts more => ⟨{task}, by simpa using more, by simpa using starts⟩
  have rest_le : ∀ {done : Task} {rest : Multiset Task},
      state.Pending done rest -> rest ≤ state.tasks := by
    intro done rest pending
    rw [pending]
    exact Multiset.le_cons_self rest done
  have next_le : ∀ {done after : Task} {rest : Multiset Task},
      state.Pending done rest -> after ::ₘ rest ≤ after ::ₘ state.tasks :=
    fun pending => Multiset.cons_le_cons _ (rest_le pending)
  have taken : ∀ {jobs : JobState} {id : String} {change : Job -> Job},
      next = jobs.takeClosable id -> Job.Keeps change ->
      jobs.table = state.table.change change -> jobs.tasks ≤ state.tasks ->
      (∀ job ∈ state.table.rows, job.id = id ->
        state.Starts step (.reclaiming job.sandbox)) ->
      ∃ started : Multiset Task, next.tasks ≤ started + state.tasks ∧
        ∀ task ∈ started, state.Starts step task := by
    intro jobs id change taken keeps table fewer starts
    obtain ⟨-, unchanged⟩ | ⟨sandbox, takes, changed⟩ :=
      jobs.takeClosable_cases id
    · exact same (by rw [taken, unchanged]; exact fewer)
    · rw [table] at takes
      obtain ⟨job, row, named, rfl, -⟩ := exists_row_of_takeClosable keeps takes
      refine one _ (starts job row named) ?_
      rw [taken, changed]
      exact Multiset.cons_le_cons _ fewer
  cases step with
  | spawn id uid anonymous cmd =>
      obtain ⟨counter, -, -, rfl⟩ := steps
      exact one _ rfl le_rfl
  | build id sandbox cmd =>
      obtain ⟨rest, pending, -, rfl⟩ := steps
      cases cmd with
      | none => exact same (by simpa [launchTask] using rest_le pending)
      | some cmd =>
          exact one (.preparing id cmd sandbox true)
            ⟨pending.self, cmd, rfl, rfl⟩
            (by simpa [launchTask] using rest_le pending)
  | failBuild id sandbox cmd =>
      obtain ⟨rest, pending, rfl⟩ := steps
      exact same (rest_le pending)
  | refuseSize id sandbox cmd =>
      obtain ⟨rest, given, -, -, rfl⟩ := steps
      exact same (rest_le_of_launchTask given)
  | startIn id cmd =>
      obtain ⟨job, found, -, -, -, rfl⟩ := steps
      exact one _ ⟨job, found, rfl⟩ le_rfl
  | waited id cmd origin =>
      obtain ⟨-, rest, pending, rfl⟩ := steps
      exact one _ ⟨pending.self, rfl⟩ (next_le pending)
  | prepare id cmd origin owned =>
      obtain ⟨rest, pending, changed⟩ := steps
      cases found : (state.table.find id).filter Job.built with
      | none =>
          rw [found] at changed
          cases owned
          · exact same (by
              rw [changed]
              simpa [failureTask] using rest_le pending)
          · exact one (.failing id origin) ⟨pending.self, .inr rfl⟩ (by
              rw [changed]
              simpa [failureTask] using rest_le pending)
      | some job =>
          obtain ⟨present, built⟩ := Option.filter_eq_some_iff.mp found
          rw [found] at changed
          exact one _ ⟨pending.self, .inl ⟨job, present, built, rfl⟩⟩
            (changed ▸ next_le pending)
  | launch id cmd origin sandbox owned pid plan =>
      obtain ⟨rest, pending, rfl⟩ := steps
      exact one _ ⟨pending.self, rfl⟩ (next_le pending)
  | failLaunch id cmd origin sandbox owned tree cleared =>
      obtain ⟨rest, pending, rfl⟩ := steps
      cases owned
      · exact same (by simpa [failureTask] using rest_le pending)
      · exact one (.failing id origin) ⟨pending.self, rfl⟩
          (by simpa [failureTask] using rest_le pending)
  | publish id origin started killed =>
      obtain ⟨rest, pending, rfl⟩ := steps
      exact one _ rfl (next_le pending)
  | reportFailure id origin =>
      obtain ⟨rest, pending, changed⟩ := steps
      exact taken changed (Job.keeps_drain.onName id) rfl (rest_le pending)
        fun job row named => ⟨job, row, named, rfl⟩
  | reap id pid =>
      obtain ⟨rest, pending,
        ⟨job, started, found, running, -, rfl⟩ | ⟨-, rfl⟩⟩ := steps
      · exact one _ ⟨pending.self, job, started, found, running, rfl⟩
          (next_le pending)
      · exact same (rest_le pending)
  | submit conclusion =>
      obtain ⟨rest, pending, rfl⟩ := steps
      exact same (rest_le pending)
  | stop id force =>
      obtain ⟨job, -, -, changed⟩ := steps
      split_ifs at changed
      · exact taken changed ((Job.keeps_stop force).onName id) rfl le_rfl
          fun job row named => ⟨job, row, named, rfl⟩
      · exact same (by rw [changed]; exact le_rfl)
  | reclaim sandbox =>
      obtain ⟨rest, pending, rfl⟩ := steps
      exact same (rest_le pending)
  | checkClose =>
      obtain ⟨id, retained, -, ⟨-, rfl⟩ | ⟨sandbox, -, -, ⟨-, rfl⟩ | ⟨-, rfl⟩⟩⟩ :=
        checkClose_cases steps <;>
        exact same le_rfl
  | refuseSpawn | take | conclude | finish | reclaimConcluded | keep
  | closeSandbox | cancel | killAll | releaseAll =>
      refine same (le_of_eq ?_)
      simp only [JobState.Steps, closeSandbox] at steps
      grind

/-- Every operation in progress was so before, or the section started it. -/
theorem tasks_of_step
    {step : JobStep}
    (steps : state.Steps step next)
    {task : Task}
    (member : task ∈ next.tasks) :
    task ∈ state.tasks ∨ state.Starts step task := by
  obtain ⟨started, fewer, starts⟩ := tasks_le_of_step steps
  rcases Multiset.mem_add.mp (Multiset.mem_of_le fewer member) with new | old
  · exact .inr (starts task new)
  · exact .inl old

/-- An operation stays in progress until its own section. -/
theorem mem_tasks_of_step
    {step : JobStep}
    (steps : state.Steps step next)
    {task : Task}
    (member : task ∈ state.tasks)
    (other : step.consumes ≠ some task) : task ∈ next.tasks := by
  have stays : ∀ {done : Task} {rest : Multiset Task},
      state.Pending done rest -> step.consumes = some done -> task ∈ rest := by
    intro done rest pending consumes
    rw [pending] at member
    rcases Multiset.mem_cons.mp member with rfl | older
    · exact absurd consumes other
    · exact older
  have taken : ∀ (jobs : JobState) (id : String), task ∈ jobs.tasks ->
      task ∈ (jobs.takeClosable id).tasks := by
    intro jobs id older
    obtain ⟨-, same⟩ | ⟨sandbox, -, same⟩ := jobs.takeClosable_cases id
    · rwa [same]
    · rw [same]
      exact Multiset.mem_cons_of_mem older
  cases step with
  | spawn id uid anonymous cmd =>
      obtain ⟨counter, -, -, rfl⟩ := steps
      exact Multiset.mem_cons_of_mem member
  | build id sandbox cmd =>
      obtain ⟨rest, pending, -, rfl⟩ := steps
      exact Multiset.mem_add.mpr (.inr (stays pending rfl))
  | failBuild id sandbox cmd =>
      obtain ⟨rest, pending, rfl⟩ := steps
      exact stays pending rfl
  | refuseSize id sandbox cmd =>
      obtain ⟨rest, given, -, -, rfl⟩ := steps
      rw [given] at member
      refine (Multiset.mem_add.mp member).resolve_left fun own => other ?_
      cases cmd with
      | none => cases own
      | some cmd => exact congrArg some (Multiset.mem_singleton.mp own).symm
  | startIn id cmd =>
      obtain ⟨job, -, -, -, -, rfl⟩ := steps
      exact Multiset.mem_cons_of_mem member
  | waited id cmd origin =>
      obtain ⟨-, rest, pending, rfl⟩ := steps
      exact Multiset.mem_cons_of_mem (stays pending rfl)
  | prepare id cmd origin owned =>
      obtain ⟨rest, pending, rfl⟩ := steps
      dsimp only
      split
      · exact Multiset.mem_cons_of_mem (stays pending rfl)
      · exact Multiset.mem_add.mpr (.inr (stays pending rfl))
  | launch id cmd origin sandbox owned pid plan =>
      obtain ⟨rest, pending, rfl⟩ := steps
      exact Multiset.mem_cons_of_mem (stays pending rfl)
  | failLaunch id cmd origin sandbox owned tree cleared =>
      obtain ⟨rest, pending, rfl⟩ := steps
      exact Multiset.mem_add.mpr (.inr (stays pending rfl))
  | publish id origin started killed =>
      obtain ⟨rest, pending, rfl⟩ := steps
      exact Multiset.mem_cons_of_mem (stays pending rfl)
  | reportFailure id origin =>
      obtain ⟨rest, pending, rfl⟩ := steps
      exact taken _ id (stays pending rfl)
  | reap id pid =>
      obtain ⟨rest, pending, ⟨job, started, -, -, -, rfl⟩ | ⟨-, rfl⟩⟩ := steps
      · exact Multiset.mem_cons_of_mem (stays pending rfl)
      · exact stays pending rfl
  | submit conclusion =>
      obtain ⟨rest, pending, rfl⟩ := steps
      exact stays pending rfl
  | checkClose =>
      obtain ⟨id, retained, -, ⟨-, rfl⟩ | ⟨sandbox, -, -, ⟨-, rfl⟩ | ⟨-, rfl⟩⟩⟩ :=
        checkClose_cases steps <;> exact member
  | stop id force =>
      obtain ⟨job, -, -, rfl⟩ := steps
      split_ifs
      · exact taken _ id member
      · exact member
  | reclaim sandbox =>
      obtain ⟨rest, pending, rfl⟩ := steps
      exact stays pending rfl
  | refuseSpawn | take | conclude | finish | reclaimConcluded | keep
  | closeSandbox | cancel | killAll | releaseAll =>
      simp only [Steps, closeSandbox] at steps
      grind

end Operations

/-! ## Commands -/

section Commands

variable {state next : JobState} {command : String × Sandbox}

theorem mem_commands_of_task
    {task : Task}
    (member : task ∈ state.tasks)
    (holds : task.command = some command) : command ∈ state.commands :=
  mem_commands.mpr (.inl ⟨task, member, holds⟩)

theorem mem_commands_of_row
    (holds : ∃ job ∈ state.table.rows, job.command = some command) :
    command ∈ state.commands :=
  mem_commands.mpr (.inr (.inl holds))

theorem mem_commands_of_pending
    {conclusion : Conclusion}
    (member : conclusion ∈ state.queue.pending)
    (holds : conclusion.command = command) : command ∈ state.commands :=
  mem_commands.mpr (.inr (.inr (.inl ⟨conclusion, member, holds⟩)))

theorem mem_commands_of_concluder
    (holds : state.concluder.command = some command) :
    command ∈ state.commands :=
  mem_commands.mpr (.inr (.inr (.inr holds)))

/-- A command is an old one when each of its places makes it one. -/
theorem mem_commands_of
    (member : command ∈ next.commands)
    (tasks : ∀ task ∈ next.tasks, task.command = some command ->
      command ∈ state.commands)
    (rows : (∃ job ∈ next.table.rows, job.command = some command) ->
      command ∈ state.commands)
    (pending : ∀ conclusion ∈ next.queue.pending,
      conclusion.command = command -> command ∈ state.commands)
    (concluder : next.concluder.command = some command ->
      command ∈ state.commands) : command ∈ state.commands := by
  rcases mem_commands.mp member with
    ⟨task, taskMember, holds⟩ | row | ⟨conclusion, queued, holds⟩ | concluding
  · exact tasks task taskMember holds
  · exact rows row
  · exact pending conclusion queued holds
  · exact concluder concluding

theorem mem_commands_takeClosable
    {id : String}
    (member : command ∈ (state.takeClosable id).commands) :
    command ∈ state.commands := by
  obtain ⟨-, same⟩ | ⟨sandbox, -, same⟩ := state.takeClosable_cases id
  · rwa [same] at member
  · rw [same] at member
    refine mem_commands_of member (fun task older holds => ?_)
      (fun row => mem_commands_of_row (JobTable.exists_command_of_remove row))
      (fun _ queued holds => mem_commands_of_pending queued holds)
      fun holds => mem_commands_of_concluder holds
    rcases Multiset.mem_cons.mp older with rfl | older
    · simp [Task.command] at holds
    · exact mem_commands_of_task older holds

/-- Every command of a later state was a command before, but for the one whose
launch reads its row. -/
theorem commands_of_step
    {step : JobStep}
    (steps : state.Steps step next)
    (member : command ∈ next.commands) :
    command ∈ state.commands ∨
      ∃ id cmd origin owned job, step = .prepare id cmd origin owned ∧
        state.table.find id = some job ∧ job.built = true ∧
        command = (id, job.sandbox) := by
  have tasks : ∀ task ∈ state.tasks, task.command = some command ->
      command ∈ state.commands := fun _ => mem_commands_of_task
  have pending : ∀ conclusion ∈ state.queue.pending,
      conclusion.command = command -> command ∈ state.commands :=
    fun _ => mem_commands_of_pending
  have concluding : state.concluder.command = some command ->
      command ∈ state.commands := mem_commands_of_concluder
  have oldRow : (∃ job ∈ state.table.rows, job.command = some command) ->
      command ∈ state.commands := mem_commands_of_row
  have updated : ∀ {id : String} {change : Job -> Job},
      (∀ job, (change job).command = job.command) ->
      (∃ job ∈ (state.table.update id change).rows,
        job.command = some command) -> command ∈ state.commands :=
    fun keeps row => mem_commands_of_row
      (JobTable.exists_command_of_update_of_keeps keeps row)
  have removed : ∀ {gone : Job -> Bool},
      (∃ job ∈ (state.table.remove gone).rows, job.command = some command) ->
        command ∈ state.commands :=
    fun row => mem_commands_of_row (JobTable.exists_command_of_remove row)
  have ended : ∀ {task : Task} {rest : Multiset Task},
      state.Pending task rest -> ∀ other ∈ rest,
        other.command = some command -> command ∈ state.commands :=
    fun inProgress other older => tasks other (inProgress.of_rest older)
  -- An operation goes on with the command it had, or without one.
  have continued : ∀ (after : Task) {task : Task} {rest : Multiset Task},
      state.Pending task rest ->
      (after.command = some command -> task.command = some command) ->
      ∀ other ∈ after ::ₘ rest, other.command = some command ->
        command ∈ state.commands := by
    intro after task rest inProgress same other older holds
    rcases Multiset.mem_cons.mp older with rfl | older
    · exact tasks task inProgress.self (same holds)
    · exact tasks other (inProgress.of_rest older) holds
  have failed : ∀ {task : Task} {rest : Multiset Task} {id : String}
      {origin : Sandbox} {owned : Bool}, state.Pending task rest ->
      ∀ other ∈ failureTask id origin owned + rest,
        other.command = some command -> command ∈ state.commands := by
    intro task rest id origin owned inProgress other older holds
    cases owned
    · exact ended inProgress other (by simpa [failureTask] using older) holds
    · exact continued (.failing id origin) inProgress (by simp [Task.command])
        other (by simpa [failureTask] using older) holds
  cases step with
  | spawn id uid anonymous cmd =>
      obtain ⟨counter, -, -, rfl⟩ := steps
      refine .inl (mem_commands_of member (fun task older holds => ?_) ?_ pending
        concluding)
      · rcases Multiset.mem_cons.mp older with rfl | older
        · simp [Task.command] at holds
        · exact tasks task older holds
      · rintro ⟨job, row, holds⟩
        rcases List.mem_append.mp row with old | new
        · exact oldRow ⟨job, old, holds⟩
        · obtain rfl := List.mem_singleton.mp new
          simp [Job.command, Job.reserve] at holds
  | refuseSpawn id anonymous =>
      obtain ⟨counter, -, rfl⟩ := steps
      exact .inl member
  | build id sandbox cmd =>
      obtain ⟨rest, inProgress, -, rfl⟩ := steps
      refine .inl (mem_commands_of member (fun task older holds => ?_)
        (updated Job.command_build) pending concluding)
      cases cmd with
      | none => exact ended inProgress task (by simpa [launchTask] using older) holds
      | some cmd =>
          exact continued (.preparing id cmd sandbox true) inProgress
            (by simp [Task.command]) task (by simpa [launchTask] using older)
            holds
  | failBuild id sandbox cmd =>
      obtain ⟨rest, inProgress, rfl⟩ := steps
      exact .inl (mem_commands_of member (ended inProgress) removed pending
        concluding)
  | refuseSize id sandbox cmd =>
      obtain ⟨rest, given, -, -, rfl⟩ := steps
      exact .inl (mem_commands_of member
        (fun task left => tasks task
          (Multiset.mem_of_le (rest_le_of_launchTask given) left))
        removed pending concluding)
  | startIn id cmd =>
      obtain ⟨job, -, -, -, -, rfl⟩ := steps
      refine .inl (mem_commands_of member (fun task older holds => ?_)
        (updated Job.command_start) pending concluding)
      rcases Multiset.mem_cons.mp older with rfl | older
      · simp [Task.command] at holds
      · exact tasks task older holds
  | waited id cmd origin =>
      obtain ⟨-, rest, inProgress, rfl⟩ := steps
      exact .inl (mem_commands_of member
        (continued _ inProgress (by simp [Task.command])) oldRow pending
        concluding)
  | prepare id cmd origin owned =>
      obtain ⟨rest, inProgress, rfl⟩ := steps
      cases found : (state.table.find id).filter Job.built with
      | none =>
          rw [found] at member
          exact .inl (mem_commands_of member (failed inProgress) oldRow pending
            concluding)
      | some job =>
          rw [found] at member
          obtain ⟨present, built⟩ := Option.filter_eq_some_iff.mp found
          by_cases new : command = (id, job.sandbox)
          · exact .inr ⟨id, cmd, origin, owned, job, rfl, present, built, new⟩
          · refine .inl (mem_commands_of member (fun task older holds => ?_)
              oldRow pending concluding)
            rcases Multiset.mem_cons.mp older with rfl | older
            · exact absurd (Option.some.inj holds).symm new
            · exact ended inProgress task older holds
  | launch id cmd origin sandbox owned pid plan =>
      obtain ⟨rest, inProgress, rfl⟩ := steps
      exact .inl (mem_commands_of member (continued _ inProgress fun holds => holds)
        oldRow pending concluding)
  | failLaunch id cmd origin sandbox owned tree cleared =>
      obtain ⟨rest, inProgress, rfl⟩ := steps
      cases cleared
      · exact .inl (mem_commands_of member (failed inProgress) oldRow pending
          concluding)
      · exact .inl (mem_commands_of member (failed inProgress)
          (updated Job.command_clear) pending concluding)
  | publish id origin started killed =>
      obtain ⟨rest, inProgress, rfl⟩ := steps
      refine .inl (mem_commands_of member
        (continued _ inProgress (by simp [Task.command])) (fun row => ?_) pending
        concluding)
      obtain old | ⟨job, -, named, holds⟩ :=
        JobTable.exists_command_of_update row
      · exact oldRow old
      · rw [Job.command_publish, named] at holds
        exact tasks _ inProgress.self holds
  | reportFailure id origin =>
      obtain ⟨rest, inProgress, rfl⟩ := steps
      exact .inl (mem_commands_of (mem_commands_takeClosable member)
        (ended inProgress) (updated Job.command_drain) pending concluding)
  | reap id pid =>
      obtain ⟨rest, inProgress,
        ⟨job, started, found, running, -, rfl⟩ | ⟨-, rfl⟩⟩ := steps
      · refine .inl (mem_commands_of member (fun task older holds => ?_)
          (fun row => ?_) pending concluding)
        · rcases Multiset.mem_cons.mp older with rfl | older
          · refine oldRow ⟨job, JobTable.mem_of_find found, ?_⟩
            rw [← holds, Job.command, running, JobTable.find_some_id found]
            rfl
          · exact ended inProgress task older holds
        · obtain old | ⟨other, -, -, holds⟩ :=
            JobTable.exists_command_of_update row
          · exact oldRow old
          · simp at holds
      · exact .inl (mem_commands_of member (ended inProgress) oldRow pending
          concluding)
  | submit conclusion =>
      obtain ⟨rest, inProgress, rfl⟩ := steps
      refine .inl (mem_commands_of member (ended inProgress) oldRow
        (fun other queued holds => ?_) concluding)
      dsimp only [ConclusionQueue.submit] at queued
      split_ifs at queued
      · exact pending other queued holds
      · rcases List.mem_append.mp queued with old | new
        · exact pending other old holds
        · obtain rfl := List.mem_singleton.mp new
          exact tasks _ inProgress.self (congrArg some holds)
  | take =>
      obtain ⟨conclusion, rest, -, queued, rfl⟩ := steps
      refine .inl (mem_commands_of member tasks oldRow
        (fun other older holds => ?_) fun holds => ?_)
      · exact pending other (queued ▸ List.mem_cons_of_mem _ older) holds
      · exact pending conclusion (queued ▸ List.mem_cons_self)
          (Option.some.inj holds)
  | conclude retained =>
      obtain ⟨conclusion, -, rfl⟩ := steps
      exact .inl (mem_commands_of member tasks oldRow pending
        (by simp [ConcludeTask.command]))
  | finish =>
      obtain ⟨id, retained, -, rfl⟩ := steps
      exact .inl (mem_commands_of member tasks oldRow pending
        (by simp [ConcludeTask.command]))
  | checkClose =>
      obtain ⟨id, retained, -, ⟨-, rfl⟩ | ⟨sandbox, -, -, ⟨-, rfl⟩ | ⟨-, rfl⟩⟩⟩ :=
        checkClose_cases steps
      · exact .inl (mem_commands_of member tasks oldRow pending
          (by simp [ConcludeTask.command]))
      · exact .inl (mem_commands_of member tasks removed pending
          (by simp [ConcludeTask.command]))
      · exact .inl (mem_commands_of member tasks removed pending
          (by simp [ConcludeTask.command]))
  | reclaimConcluded =>
      obtain ⟨sandbox, -, rfl⟩ := steps
      exact .inl (mem_commands_of member tasks removed pending
        (by simp [ConcludeTask.command, closeSandbox]))
  | keep id =>
      obtain rfl := steps
      exact .inl (mem_commands_of member tasks (updated Job.command_keep) pending
        concluding)
  | stop id force =>
      obtain ⟨job, -, -, changed⟩ := steps
      have accepted : command ∈ (state.acceptStop id force job.sandbox).commands ->
          command ∈ state.commands := fun member =>
        mem_commands_of member tasks (updated (Job.command_stop force)) pending
          concluding
      by_cases idle : state.queue.idle id = true
      · rw [if_pos idle] at changed
        exact .inl (accepted (mem_commands_takeClosable (changed ▸ member)))
      · rw [if_neg idle] at changed
        exact .inl (accepted (changed ▸ member))
  | reclaim sandbox =>
      obtain ⟨rest, inProgress, rfl⟩ := steps
      exact .inl (mem_commands_of member (ended inProgress) removed pending
        concluding)
  | closeSandbox sandbox =>
      obtain rfl := steps
      exact .inl (mem_commands_of member tasks removed pending concluding)
  | cancel =>
      obtain rfl := steps
      exact .inl (mem_commands_of member tasks oldRow pending concluding)
  | killAll killable =>
      obtain rfl := steps
      refine .inl (mem_commands_of member tasks (fun row => oldRow
        (JobTable.exists_command_of_change (fun job => ?_) row)) pending
        concluding)
      split_ifs
      · exact job.command_kill
      · rfl
  | releaseAll =>
      obtain rfl := steps
      exact .inl (mem_commands_of member tasks (fun row => oldRow
        (JobTable.exists_command_of_change Job.command_release row)) pending
        concluding)

end Commands

/-! ## Conclusions -/

/-- How many conclusions of a name were submitted and not reported. -/
def unreported (state : JobState) (id : String) : Nat :=
  pendingCount state.queue.pending id + state.concluder.concludingCount id +
    state.concluder.reportingCount id

/-- The queue counts what each job owes. -/
def Tallied (state : JobState) : Prop :=
  ∀ id, state.queue.active id = state.unreported id

theorem Tallied.congr
    {state next : JobState}
    (tallied : state.Tallied)
    (active : next.queue.active = state.queue.active)
    (pending : next.queue.pending = state.queue.pending)
    (concluder : ∀ id, next.concluder.concludingCount id +
      next.concluder.reportingCount id =
      state.concluder.concludingCount id +
        state.concluder.reportingCount id) : next.Tallied := by
  intro id
  have counts := tallied id
  have moved := concluder id
  rw [unreported] at counts ⊢
  rw [active, pending]
  omega

@[simp] theorem queue_takeClosable (state : JobState) (id : String) :
    (state.takeClosable id).queue = state.queue := by
  obtain ⟨-, same⟩ | ⟨sandbox, -, same⟩ := state.takeClosable_cases id <;>
    rw [same]

@[simp] theorem concluder_takeClosable (state : JobState) (id : String) :
    (state.takeClosable id).concluder = state.concluder := by
  obtain ⟨-, same⟩ | ⟨sandbox, -, same⟩ := state.takeClosable_cases id <;>
    rw [same]

theorem Tallied.submit
    {state : JobState}
    (tallied : state.Tallied)
    (conclusion : Conclusion)
    (rest : Multiset Task) :
    Tallied { state with
      queue := state.queue.submit conclusion
      tasks := rest } := by
  by_cases closed : state.queue.closed = true
  · exact tallied.congr (by simp [ConclusionQueue.submit, closed])
      (by simp [ConclusionQueue.submit, closed]) fun _ => rfl
  · intro id
    have counts := tallied id
    rw [unreported] at counts ⊢
    by_cases same : conclusion.id = id
    · subst same
      simp only [ConclusionQueue.submit, closed, if_false, Bool.false_eq_true,
        Function.update_self, pendingCount, List.countP_append,
        List.countP_singleton, decide_true, if_true] at counts ⊢
      omega
    · simp only [ConclusionQueue.submit, closed, if_false, Bool.false_eq_true,
        Function.update_of_ne (Ne.symm same), pendingCount, List.countP_append,
        List.countP_singleton, same, decide_false] at counts ⊢
      omega

theorem tallied_of_step
    {state next : JobState}
    {step : JobStep}
    (steps : state.Steps step next)
    (tallied : state.Tallied) : next.Tallied := by
  cases step with
  | submit conclusion =>
      obtain ⟨rest, -, rfl⟩ := steps
      exact tallied.submit conclusion rest
  | take =>
      obtain ⟨conclusion, rest, taking, queued, rfl⟩ := steps
      intro id
      have counts := tallied id
      rw [unreported] at counts ⊢
      simp only [queued, taking, pendingCount, List.countP_cons,
        ConcludeTask.concludingCount, ConcludeTask.reportingCount,
        decide_eq_true_eq] at counts ⊢
      omega
  | conclude retained =>
      obtain ⟨conclusion, concluding, rfl⟩ := steps
      refine tallied.congr rfl rfl fun id => ?_
      simp [concluding, ConcludeTask.concludingCount,
        ConcludeTask.reportingCount]
  | finish =>
      obtain ⟨reported, retained, reporting, rfl⟩ := steps
      intro id
      have counts := tallied id
      rw [unreported] at counts ⊢
      by_cases same : reported = id
      · subst same
        simp only [reporting, ConclusionQueue.finish, Function.update_self,
          ConcludeTask.concludingCount, ConcludeTask.reportingCount,
          if_true] at counts ⊢
        omega
      · simp only [reporting, ConclusionQueue.finish,
          Function.update_of_ne (Ne.symm same), ConcludeTask.concludingCount,
          ConcludeTask.reportingCount, same, if_false] at counts ⊢
        omega
  | checkClose =>
      obtain ⟨id, retained, closing,
        ⟨-, rfl⟩ | ⟨sandbox, -, -, ⟨-, rfl⟩ | ⟨-, rfl⟩⟩⟩ :=
        checkClose_cases steps <;>
        exact tallied.congr rfl rfl fun id => by rw [closing]; rfl
  | reclaimConcluded =>
      obtain ⟨sandbox, reclaiming, rfl⟩ := steps
      exact tallied.congr rfl rfl fun id => by rw [reclaiming]; rfl
  | stop id force =>
      obtain ⟨job, -, -, changed⟩ := steps
      have accepted : (state.acceptStop id force job.sandbox).Tallied :=
        tallied.congr rfl rfl fun _ => rfl
      split_ifs at changed
      · rw [changed]
        exact accepted.congr (by simp) (by simp) (by simp)
      · rwa [changed]
  | reportFailure id origin =>
      obtain ⟨rest, -, rfl⟩ := steps
      exact tallied.congr (by simp) (by simp) (by simp)
  | spawn id uid anonymous cmd =>
      obtain ⟨counter, -, -, rfl⟩ := steps
      exact tallied.congr rfl rfl fun _ => rfl
  | refuseSpawn id anonymous =>
      obtain ⟨counter, -, rfl⟩ := steps
      exact tallied.congr rfl rfl fun _ => rfl
  | build id sandbox cmd =>
      obtain ⟨rest, -, -, rfl⟩ := steps
      exact tallied.congr rfl rfl fun _ => rfl
  | failBuild id sandbox cmd =>
      obtain ⟨rest, -, rfl⟩ := steps
      exact tallied.congr rfl rfl fun _ => rfl
  | refuseSize id sandbox cmd =>
      obtain ⟨rest, -, -, -, rfl⟩ := steps
      exact tallied.congr rfl rfl fun _ => rfl
  | startIn id cmd =>
      obtain ⟨job, -, -, -, -, rfl⟩ := steps
      exact tallied.congr rfl rfl fun _ => rfl
  | waited id cmd origin =>
      obtain ⟨-, rest, -, rfl⟩ := steps
      exact tallied.congr rfl rfl fun _ => rfl
  | prepare id cmd origin owned =>
      obtain ⟨rest, -, rfl⟩ := steps
      exact tallied.congr rfl rfl fun _ => rfl
  | launch id cmd origin sandbox owned pid plan =>
      obtain ⟨rest, -, rfl⟩ := steps
      exact tallied.congr rfl rfl fun _ => rfl
  | failLaunch id cmd origin sandbox owned tree cleared =>
      obtain ⟨rest, -, rfl⟩ := steps
      exact tallied.congr rfl rfl fun _ => rfl
  | publish id origin started killed =>
      obtain ⟨rest, -, rfl⟩ := steps
      exact tallied.congr rfl rfl fun _ => rfl
  | reap id pid =>
      obtain ⟨rest, -, ⟨job, started, -, -, -, rfl⟩ | ⟨-, rfl⟩⟩ := steps <;>
        exact tallied.congr rfl rfl fun _ => rfl
  | keep id =>
      obtain rfl := steps
      exact tallied.congr rfl rfl fun _ => rfl
  | reclaim sandbox =>
      obtain ⟨rest, -, rfl⟩ := steps
      exact tallied.congr rfl rfl fun _ => rfl
  | closeSandbox sandbox =>
      obtain rfl := steps
      exact tallied.congr rfl rfl fun _ => rfl
  | cancel =>
      obtain rfl := steps
      exact tallied.congr rfl rfl fun _ => rfl
  | killAll killable =>
      obtain rfl := steps
      exact tallied.congr rfl rfl fun _ => rfl
  | releaseAll =>
      obtain rfl := steps
      exact tallied.congr rfl rfl fun _ => rfl

/-- A job that owes nothing has no conclusion queued or under way. -/
theorem Tallied.idle
    {state : JobState}
    (tallied : state.Tallied)
    {id : String}
    (idle : state.queue.idle id = true) : state.unreported id = 0 := by
  rw [← tallied id]
  simpa [ConclusionQueue.idle] using idle

end JobState

/-! ## What holds in every run -/

/-- The name an operation works on, and the sandbox of the row it began
with. -/
def Task.owner : Task -> Option (String × Sandbox)
  | .building id sandbox _ => some (id, sandbox)
  | .waiting id _ origin => some (id, origin)
  | .preparing id _ origin _ => some (id, origin)
  | .launching id _ origin _ _ => some (id, origin)
  | .publishing id origin _ => some (id, origin)
  | .failing id origin => some (id, origin)
  | .watching _ _ | .submitting _ | .reclaiming _ => none

/-- A sandbox that has lost its row for good. -/
def JobState.Gone (state : JobState) (sandbox : Sandbox) : Prop :=
  sandbox.uid ∈ state.issued ∧
    ∀ job ∈ state.table.rows, job.sandbox.uid ≠ sandbox.uid

/-- Names and uids are not shared, every sandbox in use was issued and carries
its job's name, a job to be reclaimed has lost its row, and the queue counts
what each job owes. -/
structure JobState.WellFormed (state : JobState) : Prop where
  named : (state.table.rows.map Job.id).Nodup
  distinct : (state.table.rows.map fun job => job.sandbox.uid).Nodup
  known : ∀ job ∈ state.table.rows, job.sandbox.uid ∈ state.issued
  labelled : ∀ job ∈ state.table.rows, job.sandbox.id = job.id
  owned : ∀ task ∈ state.tasks, ∀ id origin, task.owner = some (id, origin) ->
    origin.id = id ∧ origin.uid ∈ state.issued
  commanded : ∀ command ∈ state.commands,
    command.2.id = command.1 ∧ command.2.uid ∈ state.issued
  gone : ∀ sandbox, Task.reclaiming sandbox ∈ state.tasks ∨
    state.concluder = .reclaiming sandbox -> state.Gone sandbox
  tallied : state.Tallied

namespace JobState.WellFormed

variable {state next : JobState} (formed : state.WellFormed)

include formed

/-- A row is the one its name finds. -/
theorem find_of_mem
    {job : Job}
    (member : job ∈ state.table.rows) :
    state.table.find job.id = some job :=
  JobTable.find_of_mem formed.named member

/-- Rows of one name are one row. -/
theorem eq_of_id
    {job other : Job}
    (member : job ∈ state.table.rows)
    (otherMember : other ∈ state.table.rows)
    (same : job.id = other.id) : job = other :=
  List.inj_on_of_nodup_map formed.named member otherMember same

/-- Rows of one uid are one row. -/
theorem eq_of_uid
    {job other : Job}
    (member : job ∈ state.table.rows)
    (otherMember : other ∈ state.table.rows)
    (same : job.sandbox.uid = other.sandbox.uid) : job = other :=
  List.inj_on_of_nodup_map formed.distinct member otherMember same

/-- A row that was there before is there with the sandbox it had. -/
theorem rows_of_step
    {step : JobStep}
    (steps : state.Steps step next) :
    (next.table.rows.map Job.id).Nodup ∧
      (next.table.rows.map fun job => job.sandbox.uid).Nodup ∧
      (∀ job ∈ next.table.rows, job.sandbox.uid ∈ next.issued) ∧
      ∀ job ∈ next.table.rows, job.sandbox.id = job.id := by
  obtain ⟨id, uid, anonymous, cmd, -, absent, fresh, rows, issued⟩ |
    ⟨issued, change, keeps, rows⟩ := JobState.rows_of_step steps
  · rw [rows, issued]
    refine ⟨?_, ?_, ?_, ?_⟩
    · rw [List.map_append, List.map_singleton, List.nodup_append]
      refine ⟨formed.named, List.nodup_singleton _, ?_⟩
      intro name member other single same
      obtain ⟨job, jobMember, rfl⟩ := List.mem_map.mp member
      rw [JobTable.find, List.find?_eq_none] at absent
      obtain rfl := List.mem_singleton.mp single
      exact absent job jobMember (by simpa [Job.reserve] using same)
    · rw [List.map_append, List.map_singleton, List.nodup_append]
      refine ⟨formed.distinct, List.nodup_singleton _, ?_⟩
      intro taken member other single same
      obtain ⟨job, jobMember, rfl⟩ := List.mem_map.mp member
      obtain rfl := List.mem_singleton.mp single
      exact fresh ((congrArg (· ∈ state.issued) same).mp
        (formed.known job jobMember))
    · intro job member
      rcases List.mem_append.mp member with old | new
      · exact List.mem_cons_of_mem _ (formed.known job old)
      · obtain rfl := List.mem_singleton.mp new
        exact List.mem_cons_self
    · intro job member
      rcases List.mem_append.mp member with old | new
      · exact formed.labelled job old
      · obtain rfl := List.mem_singleton.mp new
        rfl
  · have names : (state.table.rows.map change).map Job.id =
        state.table.rows.map Job.id := by
      rw [List.map_map]
      exact List.map_congr_left fun job _ => (keeps job).1
    have uids : (state.table.rows.map change).map
        (fun job => job.sandbox.uid) =
        state.table.rows.map fun job => job.sandbox.uid := by
      rw [List.map_map]
      exact List.map_congr_left fun job _ =>
        congrArg Sandbox.uid (keeps job).2
    refine ⟨?_, ?_, fun job member => ?_, fun job member => ?_⟩
    · exact (names ▸ formed.named).sublist (rows.map Job.id)
    · exact (uids ▸ formed.distinct).sublist (rows.map _)
    · obtain ⟨row, rowMember, rfl⟩ := List.mem_map.mp (rows.subset member)
      rw [(keeps row).2, issued]
      exact formed.known row rowMember
    · obtain ⟨row, rowMember, rfl⟩ := List.mem_map.mp (rows.subset member)
      rw [(keeps row).1, (keeps row).2]
      exact formed.labelled row rowMember

omit formed in
/-- Uids stay issued. -/
theorem issued_of_step
    {step : JobStep}
    (steps : state.Steps step next) : state.issued ⊆ next.issued := by
  obtain ⟨id, uid, anonymous, cmd, -, -, -, -, issued⟩ | ⟨issued, -⟩ :=
    JobState.rows_of_step steps
  · rw [issued]
    exact List.subset_cons_self uid state.issued
  · rw [issued]
    exact List.Subset.refl state.issued

/-- An operation a section starts works for the row it names. -/
theorem owned_of_step
    {step : JobStep}
    (steps : state.Steps step next) :
    ∀ task ∈ next.tasks, ∀ id origin, task.owner = some (id, origin) ->
      origin.id = id ∧ origin.uid ∈ next.issued := by
  have issued := issued_of_step steps
  have same : ∀ {task after : Task}, task ∈ state.tasks ->
      after.owner = task.owner -> ∀ id origin,
        after.owner = some (id, origin) ->
          origin.id = id ∧ origin.uid ∈ next.issued :=
    fun member kept id origin owner =>
      (formed.owned _ member id origin (kept.symm.trans owner)).imp_right
        fun known => issued known
  intro task member
  rcases tasks_of_step steps member with old | new
  · exact same old rfl
  · cases step with
    | spawn id uid anonymous cmd =>
        obtain rfl := new
        obtain ⟨counter, -, -, rfl⟩ := steps
        rintro _ _ ⟨⟩
        exact ⟨rfl, List.mem_cons_self⟩
    | build id sandbox cmd =>
        obtain ⟨began, given, -, rfl⟩ := new
        exact same began rfl
    | startIn id cmd =>
        obtain ⟨job, found, rfl⟩ := new
        rintro _ _ ⟨⟩
        have row := JobTable.mem_of_find found
        refine ⟨?_, issued (formed.known job row)⟩
        rw [formed.labelled job row]
        exact JobTable.find_some_id found
    | waited id cmd origin =>
        obtain ⟨began, rfl⟩ := new
        exact same began rfl
    | prepare id cmd origin owned =>
        obtain ⟨began, ⟨job, -, -, rfl⟩ | rfl⟩ := new <;>
          exact same began rfl
    | launch id cmd origin sandbox owned pid plan =>
        obtain ⟨began, rfl⟩ := new
        exact same began rfl
    | failLaunch id cmd origin sandbox owned tree cleared =>
        obtain ⟨began, rfl⟩ := new
        exact same began rfl
    | publish id origin started killed =>
        obtain rfl := new
        rintro _ _ ⟨⟩
    | reap id pid =>
        obtain ⟨-, job, started, -, -, rfl⟩ := new
        rintro _ _ ⟨⟩
    | reportFailure id origin =>
        obtain ⟨job, -, -, rfl⟩ := new
        rintro _ _ ⟨⟩
    | stop id force =>
        obtain ⟨job, -, -, rfl⟩ := new
        rintro _ _ ⟨⟩
    | refuseSpawn | failBuild | refuseSize | submit | take | conclude | finish
    | checkClose | reclaimConcluded | keep | reclaim | closeSandbox | cancel
    | killAll | releaseAll => exact new.elim

omit formed in
/-- What was gone stays gone. -/
theorem gone_of_step
    {step : JobStep}
    (steps : state.Steps step next)
    {sandbox : Sandbox}
    (gone : state.Gone sandbox) : next.Gone sandbox := by
  refine ⟨issued_of_step steps gone.1, fun job member same => ?_⟩
  obtain ⟨id, uid, anonymous, cmd, -, -, fresh, rows, -⟩ |
    ⟨-, change, keeps, rows⟩ := JobState.rows_of_step steps
  · rw [rows] at member
    rcases List.mem_append.mp member with old | new
    · exact gone.2 job old same
    · obtain rfl := List.mem_singleton.mp new
      exact fresh ((show uid = sandbox.uid from same) ▸ gone.1)
  · obtain ⟨row, rowMember, rfl⟩ := List.mem_map.mp (rows.subset member)
    rw [(keeps row).2] at same
    exact gone.2 row rowMember same

/-- A row that is taken to be closed is gone. -/
theorem gone_of_takeClosable
    {change : Job -> Job}
    (keeps : Job.Keeps change)
    {id : String}
    {sandbox : Sandbox}
    (takes : (state.table.change change).takeClosable id =
      some (sandbox, (state.table.change change).remove (JobTable.closable id))) :
    sandbox.uid ∈ state.issued ∧
      ∀ job ∈ ((state.table.change change).remove
        (JobTable.closable id)).rows, job.sandbox.uid ≠ sandbox.uid := by
  obtain ⟨taken, found, pair⟩ := Option.map_eq_some_iff.mp takes
  obtain rfl : taken.sandbox = sandbox := (Prod.mk.inj pair).1
  have takenMember := List.mem_of_find?_eq_some found
  have named := (state.table.names_change fun job => (keeps job).1).symm ▸
    formed.named
  have distinct := (state.table.uids_change fun job => (keeps job).2).symm ▸
    formed.distinct
  constructor
  · obtain ⟨row, rowMember, same⟩ := List.mem_map.mp takenMember
    rw [← same, (keeps row).2]
    exact formed.known row rowMember
  · intro job member same
    have old := ((state.table.change change).rows_remove_sublist
      (JobTable.closable id)).subset member
    obtain rfl := List.inj_on_of_nodup_map distinct old takenMember same
    have none := JobTable.find_remove_self named found
    rw [JobTable.find, List.find?_eq_none] at none
    exact none job member (by simp)

/-- A job to be reclaimed has lost its row. -/
theorem reclaimed_of_step
    {step : JobStep}
    (steps : state.Steps step next) :
    ∀ sandbox, Task.reclaiming sandbox ∈ next.tasks ∨
      next.concluder = .reclaiming sandbox -> next.Gone sandbox := by
  intro sandbox closed
  by_cases before : Task.reclaiming sandbox ∈ state.tasks ∨
      state.concluder = .reclaiming sandbox
  · exact gone_of_step steps (formed.gone sandbox before)
  -- A new reclamation is of the row the section takes.
  · have taken : ∀ {jobs : JobState} {change : Job -> Job} {id : String},
        next = jobs.takeClosable id -> Job.Keeps change ->
        jobs.table = state.table.change change ->
        jobs.issued = state.issued -> jobs.concluder = state.concluder ->
        (∀ task ∈ jobs.tasks, task ∈ state.tasks) -> next.Gone sandbox := by
      intro jobs change id taken keeps table issued concluder older
      obtain ⟨-, same⟩ | ⟨removed, takes, same⟩ := jobs.takeClosable_cases id
      · rw [taken, same, concluder] at closed
        exact absurd (closed.imp_left (older _)) before
      · rw [table] at takes
        rw [taken, same] at closed
        rcases closed with member | concluding
        · rcases Multiset.mem_cons.mp member with new | old
          · obtain rfl := Task.reclaiming.inj new
            obtain ⟨known, apart⟩ := formed.gone_of_takeClosable keeps takes
            rw [taken, same]
            exact ⟨issued ▸ known, by rw [table]; exact apart⟩
          · exact absurd (.inl (older _ old)) before
        · exact absurd (.inr (concluder ▸ concluding)) before
    cases step with
    | stop id force =>
        obtain ⟨job, -, -, changed⟩ := steps
        split_ifs at changed
        · exact taken changed ((Job.keeps_stop force).onName id) rfl rfl rfl
            fun _ member => member
        · rw [changed] at closed
          exact absurd closed before
    | reportFailure id origin =>
        obtain ⟨rest, pending, changed⟩ := steps
        exact taken changed (Job.keeps_drain.onName id) rfl rfl rfl
          fun _ member => pending.of_rest member
    | checkClose =>
        obtain ⟨id, retained, -,
          ⟨-, rfl⟩ | ⟨removed, -, takes, ⟨-, rfl⟩ | ⟨-, rfl⟩⟩⟩ :=
          checkClose_cases steps
        · exact absurd (closed.imp_right (by simp)) before
        · exact absurd (closed.imp_right (by simp)) before
        · rcases closed with member | concluding
          · exact absurd (.inl member) before
          · obtain rfl := ConcludeTask.reclaiming.inj concluding
            have identity : state.table.change (fun job => job) = state.table := by
              simp [JobTable.change]
            have gone := @gone_of_takeClosable state formed _ Job.keeps_self id removed
              (by rw [identity]; exact takes)
            rw [identity] at gone
            exact gone
    | spawn | refuseSpawn | build | failBuild | refuseSize | startIn | waited
    | prepare | launch | failLaunch | publish | reap | submit | take | conclude | finish
    | reclaimConcluded | keep | reclaim | closeSandbox | cancel | killAll
    | releaseAll =>
        exfalso
        apply before
        refine closed.imp (fun member => ?_) fun concluding => ?_
        · rcases tasks_of_step steps member with old | new
          · exact old
          · simp [JobState.Starts] at new
        · simp only [JobState.Steps, JobState.closeSandbox] at steps
          grind

/-- Every section keeps the state well formed. -/
theorem step
    {step : JobStep}
    (steps : state.Steps step next) : next.WellFormed := by
  obtain ⟨named, distinct, known, labelled⟩ := formed.rows_of_step steps
  refine ⟨named, distinct, known, labelled, formed.owned_of_step steps,
    fun command member => ?_, formed.reclaimed_of_step steps,
    tallied_of_step steps formed.tallied⟩
  have issued := issued_of_step steps
  obtain old | ⟨id, cmd, origin, owned, job, -, found, -, rfl⟩ :=
    commands_of_step steps member
  · exact (formed.commanded command old).imp_right fun known => issued known
  · have row := JobTable.mem_of_find found
    refine ⟨?_, issued (formed.known job row)⟩
    rw [formed.labelled job row, JobTable.find_some_id found]

omit formed in
/-- The machine starts well formed. -/
theorem empty : JobState.empty.WellFormed := by
  refine ⟨List.nodup_nil, List.nodup_nil, by simp [JobState.empty],
    by simp [JobState.empty], by simp [JobState.empty], fun command member => ?_,
    by simp [JobState.empty], fun id => rfl⟩
  rcases mem_commands.mp member with
    ⟨task, member, -⟩ | ⟨job, member, -⟩ | ⟨conclusion, member, -⟩ | holds
  · simp [JobState.empty] at member
  · simp [JobState.empty] at member
  · simp [JobState.empty] at member
  · simp [JobState.empty, ConcludeTask.command] at holds

omit formed in
/-- Every reachable state is well formed. -/
theorem of_reachable (reachable : jobMachine.Reachable state) :
    state.WellFormed :=
  reachable.invariant WellFormed (fun _ initial => initial ▸ empty)
    fun _ _ _ _ formed steps => formed.step steps

end JobState.WellFormed

/-! ## The run of one command -/

/-- A section other than a conclusion. -/
def JobStep.Unconcluding (step : JobStep) : Prop :=
  ∀ retained, step ≠ .conclude retained

/-- The sandbox of a sample job. -/
def sampleSandbox : Sandbox where
  id := "alice"
  uid := "u1"

/-- Its command. -/
def sampleStarted : StartedCmd where
  pid := 7
  sandbox := sampleSandbox
  cmd := "printf x > a"
  forceStopped := false

/-- Its row while nothing runs in it. -/
def sampleJob : Job where
  id := "alice"
  sandbox := sampleSandbox
  built := true
  running := none
  starting := false
  close := none

/-- The machine with the sample job only. -/
def JobState.sample
    (job : Job)
    (trees : Finset String)
    (tasks : Multiset Task) : JobState :=
  { JobState.empty with
    table := ⟨[job], 1⟩
    tasks := tasks
    trees := trees
    issued := ["u1"] }

/-- The sections that start the sample command, each with the state it runs
in. -/
def sampleRun : List (JobState × JobStep) :=
  [(.empty, .spawn "alice" "u1" false (some "printf x > a")),
    (.sample (.reserve "alice" "u1" false (some "printf x > a")) ∅
        {.building "alice" sampleSandbox (some "printf x > a")},
      .build "alice" sampleSandbox (some "printf x > a")),
    (.sample sampleJob.start ∅
        {.preparing "alice" "printf x > a" sampleSandbox true},
      .prepare "alice" "printf x > a" sampleSandbox true),
    (.sample sampleJob.start ∅
        {.launching "alice" "printf x > a" sampleSandbox sampleSandbox true},
      .launch "alice" "printf x > a" sampleSandbox sampleSandbox true 7
        .transaction),
    (.sample sampleJob.start {"u1"}
        {.publishing "alice" sampleSandbox sampleStarted},
      .publish "alice" sampleSandbox sampleStarted true)]

/-- The sample command runs, in every machine that allows its sections. -/
theorem reachable_running
    {allowed : JobState -> JobStep -> Prop}
    (allows : ∀ taken ∈ sampleRun, allowed taken.1 taken.2) :
    (jobMachine.restrict allowed).Reachable
      (.sample { sampleJob with running := some sampleStarted } {"u1"}
        {.watching "alice" 7}) := by
  simp only [sampleRun, List.forall_mem_cons] at allows
  obtain ⟨spawns, builds, prepares, launches, publishes, -⟩ := allows
  let system := jobMachine.restrict allowed
  have start : system.Reachable .empty := .start rfl
  have spawned : system.Reachable
      (.sample (.reserve "alice" "u1" false (some "printf x > a")) ∅
        {.building "alice" sampleSandbox (some "printf x > a")}) :=
    .step (.spawn "alice" "u1" false (some "printf x > a")) start
      ⟨⟨1, ⟨rfl, rfl⟩, List.not_mem_nil, rfl⟩, spawns⟩
  have built : system.Reachable
      (.sample sampleJob.start ∅
        {.preparing "alice" "printf x > a" sampleSandbox true}) :=
    .step (.build "alice" sampleSandbox (some "printf x > a")) spawned
      ⟨⟨0, rfl, rfl, rfl⟩, builds⟩
  have prepared : system.Reachable
      (.sample sampleJob.start ∅
        {.launching "alice" "printf x > a" sampleSandbox sampleSandbox true}) :=
    .step (.prepare "alice" "printf x > a" sampleSandbox true) built
      ⟨⟨0, rfl, rfl⟩, prepares⟩
  have launched : system.Reachable
      (.sample sampleJob.start {"u1"}
        {.publishing "alice" sampleSandbox sampleStarted}) :=
    .step (.launch "alice" "printf x > a" sampleSandbox sampleSandbox true 7
      .transaction) prepared ⟨⟨0, rfl, rfl⟩, launches⟩
  exact .step (.publish "alice" sampleSandbox sampleStarted true) launched
    ⟨⟨0, rfl, rfl⟩, publishes⟩

end Shellmux
end Marsh
