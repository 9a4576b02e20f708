import Marsh.Shellmux.JobSteps

/-!
# What a section does to each row

Every section changes each row by a function of the row alone, and then removes
at most one.
-/

namespace Marsh
namespace Shellmux

/-- Changes a row of a name. -/
def Job.named (id : String) (change : Job -> Job) (job : Job) : Job :=
  if job.id = id then change job else job

/-- What a section makes of a row it does not remove. -/
def JobStep.onRow : JobStep -> Job -> Job
  | .build id _ _ => Job.named id Job.build
  | .startIn id _ => Job.named id Job.start
  | .failLaunch id _ _ _ _ _ true => Job.named id Job.clear
  | .publish id _ started killed => Job.named id (Job.publish started killed)
  | .reportFailure id _ => Job.named id Job.drain
  | .reap id pid => Job.named id fun job =>
      if job.running.any fun started => started.pid = pid then job.reap else job
  | .keep id => Job.named id Job.keep
  | .stop id force => Job.named id (Job.stop force)
  | .killAll killable => fun job => if killable job.id then job.kill else job
  | .releaseAll => Job.release
  | _ => fun job => job

/-- A row that may be taken once it has been changed: nothing runs in it or is
starting. -/
def Job.Idle (job : Job) : Prop :=
  job.running = none ∧ job.starting = false ∧ job.close.isSome

/-- Why a section removes a row. -/
def JobState.Removes (state : JobState) (step : JobStep) (job : Job) : Prop :=
  match step with
  | .failBuild id _ _ | .refuseSize id _ _ => job.id = id
  | .reportFailure id _ => job.id = id ∧ (step.onRow job).Idle
  | .stop id _ =>
      state.queue.idle id = true ∧ job.id = id ∧ (step.onRow job).Idle
  | .checkClose =>
      state.queue.idle job.id = true ∧
        (∃ retained, state.concluder = .closing job.id retained) ∧ job.Idle
  | .closeSandbox sandbox => job.sandbox.uid = sandbox.uid
  | _ => False

theorem Job.Keeps.named
    {change : Job -> Job}
    (keeps : Job.Keeps change)
    (id : String) : Job.Keeps (Job.named id change) :=
  keeps.onName id

theorem JobStep.keeps_onRow (step : JobStep) : Job.Keeps step.onRow := by
  cases step with
  | build id => exact Job.keeps_build.named id
  | startIn id => exact Job.keeps_start.named id
  | failLaunch id cmd origin sandbox owned tree cleared =>
      cases cleared
      · exact Job.keeps_self
      · exact Job.keeps_clear.named id
  | publish id origin started killed =>
      exact (Job.keeps_publish started killed).named id
  | reportFailure id => exact Job.keeps_drain.named id
  | reap id pid =>
      refine Job.Keeps.named (fun job => ?_) id
      split
      · exact Job.keeps_reap job
      · exact Job.keeps_self job
  | keep id => exact Job.keeps_keep.named id
  | stop id force => exact (Job.keeps_stop force).named id
  | killAll killable => exact Job.keeps_killable killable
  | releaseAll => exact Job.keeps_release
  | spawn | refuseSpawn | failBuild | refuseSize | waited | prepare | launch
  | submit | take | conclude | finish | checkClose | reclaimConcluded | reclaim
  | closeSandbox | cancel => exact Job.keeps_self

/-- What runs in a row ran there before, or the section publishes it. -/
theorem JobStep.running_onRow
    {step : JobStep}
    {row : Job}
    {started : StartedCmd}
    (running : (step.onRow row).running = some started) :
    (∃ before, row.running = some before ∧ started.sandbox = before.sandbox ∧
        started.pid = before.pid) ∨
      ∃ id origin published killed,
        step = .publish id origin published killed ∧ row.id = id ∧
          started.sandbox = published.sandbox ∧
          started.pid = published.pid := by
  have kept : (step.onRow row).running = row.running ->
      ∃ before, row.running = some before ∧ started.sandbox = before.sandbox ∧
        started.pid = before.pid :=
    fun same => ⟨started, same ▸ running, rfl, rfl⟩
  have killed : (step.onRow row).running =
      row.running.map (fun started => { started with forceStopped := true }) ->
      ∃ before, row.running = some before ∧ started.sandbox = before.sandbox ∧
        started.pid = before.pid := by
    intro flagged
    rw [flagged] at running
    obtain ⟨before, was, rfl⟩ := Option.map_eq_some_iff.mp running
    exact ⟨before, was, rfl, rfl⟩
  cases step with
  | publish id origin published dead =>
      by_cases named : row.id = id
      · refine .inr ⟨id, origin, published, dead, rfl, named, ?_⟩
        simp only [onRow, Job.named, if_pos named, Job.publish] at running
        split_ifs at running <;> obtain rfl := Option.some.inj running <;>
          exact ⟨rfl, rfl⟩
      · exact .inl (kept (by simp [onRow, Job.named, named]))
  | reap id pid =>
      refine .inl ⟨started, ?_, rfl, rfl⟩
      simp only [onRow, Job.named] at running
      split_ifs at running
      · contradiction
      · exact running
      · exact running
  | stop id force =>
      by_cases named : row.id = id
      · cases force
        · exact .inl (kept (by simp [onRow, Job.named, named, Job.stop,
            Job.drain]))
        · exact .inl (killed (by simp [onRow, Job.named, named, Job.stop,
            Job.kill]))
      · exact .inl (kept (by simp [onRow, Job.named, named]))
  | killAll killable =>
      by_cases kills : killable row.id = true
      · exact .inl (killed (by simp [onRow, kills, Job.kill]))
      · exact .inl (kept (by simp [onRow, kills]))
  | failLaunch id cmd origin sandbox owned tree cleared =>
      refine .inl (kept ?_)
      cases cleared
      · rfl
      · simp [onRow, Job.named, Job.clear, apply_ite Job.running]
  | keep id =>
      refine .inl (kept ?_)
      simp [onRow, Job.named, Job.keep, apply_ite Job.running]
  | build | startIn | reportFailure | releaseAll =>
      refine .inl (kept ?_)
      simp [onRow, Job.named, Job.build, Job.start, Job.drain, Job.release,
        apply_ite Job.running]
  | spawn | refuseSpawn | failBuild | refuseSize | waited | prepare | launch
  | submit | take | conclude | finish | checkClose | reclaimConcluded | reclaim
  | closeSandbox | cancel => exact .inl (kept rfl)

/-- A row is removed for its kind, or stays. -/
theorem JobTable.mem_remove_or
    {table : JobTable}
    {removed : Job -> Bool}
    {job : Job}
    (member : job ∈ table.rows) :
    job ∈ (table.remove removed).rows ∨ removed job = true := by
  by_cases gone : removed job = true
  · exact .inr gone
  · exact .inl ((List.mem_eraseP_of_neg gone).mpr member)

/-- Of the rows of one kind that have one name, none is left when one is
removed. -/
theorem JobTable.not_removed_of_mem
    {table : JobTable}
    {removed : Job -> Bool}
    (named : (table.rows.map Job.id).Nodup)
    (single : ∀ job ∈ table.rows, removed job = true ->
      ∀ other ∈ table.rows, removed other = true -> job.id = other.id)
    {job : Job}
    (member : job ∈ (table.remove removed).rows) : removed job = false := by
  by_contra gone
  have old := (table.rows_remove_sublist removed).subset member
  have holds : removed job = true := by simpa using gone
  obtain ⟨first, found⟩ := Option.isSome_iff_exists.mp
    (List.find?_isSome.mpr ⟨job, old, holds⟩)
  have lost := JobTable.find_remove_self named found
  rw [JobTable.find, List.find?_eq_none] at lost
  exact lost job member (decide_eq_true (single job old holds first
    (List.mem_of_find?_eq_some found) (List.find?_some found)))

theorem JobTable.idle_of_closable
    {id : String}
    {job : Job}
    (closable : JobTable.closable id job = true) : job.id = id ∧ job.Idle := by
  simp only [JobTable.closable, Bool.and_eq_true, decide_eq_true_eq,
    Option.isNone_iff_eq_none, Bool.not_eq_true'] at closable
  obtain ⟨⟨⟨named, closing⟩, quiet⟩, unreserved⟩ := closable
  exact ⟨named, quiet, unreserved, closing⟩

namespace JobState

variable {state next : JobState} {step : JobStep}

/-- Taking a closable row removes at most an idle one. -/
theorem rows_takeClosable_or
    (state : JobState)
    (id : String)
    {job : Job}
    (member : job ∈ state.table.rows) :
    job ∈ (state.takeClosable id).table.rows ∨ (job.id = id ∧ job.Idle) := by
  obtain ⟨-, same⟩ | ⟨sandbox, -, same⟩ := state.takeClosable_cases id
  · rw [same]
    exact .inl member
  · rw [same]
    exact (JobTable.mem_remove_or member).imp_right JobTable.idle_of_closable

/-- The rows after a section, but for the one a spawn reserves, are those the
section changed, less the ones it removes. -/
theorem onRow_of_step
    (formed : state.WellFormed)
    (steps : state.Steps step next)
    (unspawned : ∀ id uid anonymous cmd, step ≠ .spawn id uid anonymous cmd) :
    next.table.rows.Sublist (state.table.rows.map step.onRow) ∧
      ∀ job ∈ state.table.rows,
        step.onRow job ∈ next.table.rows ∨ state.Removes step job := by
  have same : ∀ {rows : List Job}, rows = state.table.rows.map step.onRow ->
      rows.Sublist (state.table.rows.map step.onRow) ∧
        ∀ job ∈ state.table.rows, step.onRow job ∈ rows ∨ state.Removes step job := by
    rintro rows rfl
    exact ⟨List.Sublist.refl _, fun job member =>
      .inl (List.mem_map_of_mem member)⟩
  have unchanged : step.onRow = (fun job => job) ->
      ∀ {rows : List Job}, rows = state.table.rows ->
      rows.Sublist (state.table.rows.map step.onRow) ∧
        ∀ job ∈ state.table.rows, step.onRow job ∈ rows ∨ state.Removes step job := by
    rintro row rows rfl
    exact same (by rw [row, List.map_id'])
  have removed : step.onRow = (fun job => job) -> ∀ removed : Job -> Bool,
      (∀ job ∈ state.table.rows, removed job = true -> state.Removes step job) ->
      ((state.table.remove removed).rows).Sublist
          (state.table.rows.map step.onRow) ∧
        ∀ job ∈ state.table.rows,
          step.onRow job ∈ (state.table.remove removed).rows ∨
            state.Removes step job := by
    intro row kind gone
    rw [row, List.map_id']
    exact ⟨state.table.rows_remove_sublist kind, fun job member =>
      (JobTable.mem_remove_or member).imp_right (gone job member)⟩
  have taken : ∀ {jobs : JobState} {id : String},
      jobs.table.rows = state.table.rows.map step.onRow ->
      (∀ job, (step.onRow job).id = id -> (step.onRow job).Idle ->
        state.Removes step job) ->
      (jobs.takeClosable id).table.rows.Sublist
          (state.table.rows.map step.onRow) ∧
        ∀ job ∈ state.table.rows,
          step.onRow job ∈ (jobs.takeClosable id).table.rows ∨
            state.Removes step job := by
    intro jobs id rows gone
    refine ⟨rows ▸ rows_takeClosable_sublist jobs id, fun job member => ?_⟩
    have changed : step.onRow job ∈ jobs.table.rows := by
      rw [rows]
      exact List.mem_map_of_mem member
    exact (jobs.rows_takeClosable_or id changed).imp_right fun idle =>
      gone job idle.1 idle.2
  cases step with
  | spawn id uid anonymous cmd => exact absurd rfl (unspawned _ _ _ _)
  | build id sandbox cmd =>
      obtain ⟨rest, -, -, rfl⟩ := steps
      exact same rfl
  | failBuild id sandbox cmd =>
      obtain ⟨rest, -, rfl⟩ := steps
      exact removed rfl _ fun job _ gone => by
        simpa [Removes] using gone
  | refuseSize id sandbox cmd =>
      obtain ⟨rest, -, -, -, rfl⟩ := steps
      exact removed rfl _ fun job _ gone => by
        simpa [Removes] using gone
  | startIn id cmd =>
      obtain ⟨job, -, -, -, -, rfl⟩ := steps
      exact same rfl
  | waited id cmd origin =>
      obtain ⟨-, rest, -, rfl⟩ := steps
      exact unchanged rfl rfl
  | failLaunch id cmd origin sandbox owned tree cleared =>
      obtain ⟨rest, -, rfl⟩ := steps
      cases cleared
      · exact unchanged rfl rfl
      · exact same rfl
  | publish id origin started killed =>
      obtain ⟨rest, -, rfl⟩ := steps
      exact same rfl
  | reportFailure id origin =>
      obtain ⟨rest, -, rfl⟩ := steps
      refine taken rfl fun job named idle => ⟨?_, idle⟩
      rwa [(JobStep.keeps_onRow _ job).1] at named
  | reap id pid =>
      obtain ⟨rest, -, ⟨row, started, found, running, ends, rfl⟩ |
        ⟨other, rfl⟩⟩ := steps
      · refine same (List.map_congr_left fun job member => ?_)
        change Job.named id Job.reap job = JobStep.onRow (.reap id pid) job
        simp only [JobStep.onRow, Job.named]
        split_ifs with named runs
        · rfl
        · obtain rfl : job = row := formed.eq_of_id member
            (JobTable.mem_of_find found)
            (named.trans (JobTable.find_some_id found).symm)
          simp [running, ends] at runs
        · rfl
      · refine same (Eq.symm ?_)
        refine (List.map_congr_left fun job member => ?_).trans (List.map_id' _)
        simp only [JobStep.onRow, Job.named]
        split_ifs with named runs
        · obtain ⟨started, running, ends⟩ := (Option.any_eq_true _ _).mp runs
          exact absurd (of_decide_eq_true ends)
            (other job (named ▸ formed.find_of_mem member) started running)
        · rfl
        · rfl
  | checkClose =>
      obtain ⟨id, retained, closing, ⟨-, rfl⟩ |
        ⟨sandbox, idle, -, taken⟩⟩ := checkClose_cases steps
      · exact unchanged rfl rfl
      · have gone : ∀ job ∈ state.table.rows,
            JobTable.closable id job = true -> state.Removes .checkClose job := by
          intro job _ closable
          obtain ⟨rfl, quiet⟩ := JobTable.idle_of_closable closable
          exact ⟨idle, ⟨retained, closing⟩, quiet⟩
        obtain ⟨-, rfl⟩ | ⟨-, rfl⟩ := taken <;> exact removed rfl _ gone
  | reclaimConcluded =>
      obtain ⟨sandbox, reclaiming, rfl⟩ := steps
      have lost := (formed.gone sandbox (.inr reclaiming)).2
      exact removed rfl _ fun job member gone =>
        absurd (by simpa using gone) (lost job member)
  | keep id =>
      obtain rfl := steps
      exact same rfl
  | stop id force =>
      obtain ⟨row, -, -, rfl⟩ := steps
      split_ifs with unowed
      · refine taken rfl fun job named idle => ⟨unowed, ?_, idle⟩
        rwa [(JobStep.keeps_onRow _ job).1] at named
      · exact same rfl
  | reclaim sandbox =>
      obtain ⟨rest, pending, rfl⟩ := steps
      have lost := (formed.gone sandbox (.inl pending.self)).2
      exact removed rfl _ fun job member gone =>
        absurd (by simpa using gone) (lost job member)
  | closeSandbox sandbox =>
      obtain rfl := steps
      exact removed rfl _ fun job _ gone => by
        simpa [Removes] using gone
  | killAll killable =>
      obtain rfl := steps
      exact same rfl
  | releaseAll =>
      obtain rfl := steps
      exact same rfl
  | refuseSpawn | prepare | launch | submit | take | conclude | finish
  | cancel =>
      simp only [Steps] at steps
      grind [JobStep.onRow]

end JobState

end Shellmux
end Marsh
