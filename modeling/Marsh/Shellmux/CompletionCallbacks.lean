import Marsh.Shellmux.CommandLedger
import Marsh.Shellmux.ClosingJobs

/-!
# Completion callbacks

A callback is kept in the row of its job, and a completion takes whatever the row
has.  This is the callback of its own command as long as no command is published
while another of its job is unconcluded, no such job is removed, and the report
of a failed launch finds no callback.
-/

namespace Marsh
namespace Shellmux

open Library

/-! ## Conclusions to come -/

/-- The conclusion a task is to submit. -/
def Task.conclusion : Task -> Option Conclusion
  | .submitting conclusion => some conclusion
  | .building _ _ _ | .waiting _ _ _ | .preparing _ _ _ _
  | .launching _ _ _ _ _ | .publishing _ _ _ | .failing _ _ | .watching _ _
  | .reclaiming _ => none

/-- The conclusion the conclusion task is at. -/
def ConcludeTask.conclusion : ConcludeTask -> Option Conclusion
  | .concluding conclusion => some conclusion
  | .taking | .reporting _ _ | .closing _ _ | .reclaiming _ => none

namespace JobState

/-- The conclusions that have not been run. -/
def unconcluded (state : JobState) : Multiset Conclusion :=
  state.tasks.filterMap Task.conclusion + (state.queue.pending : Multiset _) +
    (state.concluder.conclusion.toList : Multiset _)

variable {state next : JobState} {step : JobStep}

theorem mem_unconcluded {conclusion : Conclusion} :
    conclusion ∈ state.unconcluded ↔ state.Unconcluded conclusion := by
  have submitting : (∃ task ∈ state.tasks, task.conclusion = some conclusion) ↔
      Task.submitting conclusion ∈ state.tasks := by
    constructor
    · rintro ⟨task, member, own⟩
      cases task <;> cases own
      exact member
    · exact fun member => ⟨_, member, rfl⟩
  have concluding : conclusion ∈ state.concluder.conclusion.toList ↔
      state.concluder = .concluding conclusion := by
    rw [Option.mem_toList]
    cases state.concluder <;> simp [ConcludeTask.conclusion]
  rw [unconcluded, Multiset.mem_add, Multiset.mem_add, Multiset.mem_filterMap,
    Multiset.mem_coe, Multiset.mem_coe, submitting, concluding, or_assoc,
    Unconcluded]

theorem filterMap_conclusion_cons (task : Task) (rest : Multiset Task) :
    (task ::ₘ rest).filterMap Task.conclusion =
      (task.conclusion.toList : Multiset Conclusion) +
        rest.filterMap Task.conclusion := by
  cases own : task.conclusion with
  | none =>
      rw [Multiset.filterMap_cons_none _ _ own]
      exact (zero_add _).symm
  | some conclusion =>
      rw [Multiset.filterMap_cons_some _ _ _ own]
      rfl

theorem unconcluded_takeClosable (state : JobState) (id : String) :
    (state.takeClosable id).unconcluded = state.unconcluded := by
  obtain ⟨-, same⟩ | ⟨sandbox, -, same⟩ := state.takeClosable_cases id
  · rw [same]
  · rw [same]
    simp [unconcluded, filterMap_conclusion_cons, Task.conclusion]

/-- Only a reap adds a conclusion, and only its run takes it away. -/
theorem unconcluded_of_step
    (opened : state.queue.closed = false)
    (steps : state.Steps step next) :
    (next.unconcluded = state.unconcluded ∧
      (∀ id pid job started, step = .reap id pid ->
        state.table.find id = some job -> job.running = some started ->
        started.pid ≠ pid) ∧
      ∀ retained, step ≠ .conclude retained) ∨
    (∃ id pid job started, step = .reap id pid ∧
      state.table.find id = some job ∧ job.running = some started ∧
      started.pid = pid ∧
      next.unconcluded = ⟨id, started⟩ ::ₘ state.unconcluded) ∨
    ∃ retained conclusion, step = .conclude retained ∧
      state.concluder = .concluding conclusion ∧
      state.unconcluded = conclusion ::ₘ next.unconcluded := by
  have quiet : next.unconcluded = state.unconcluded ->
      (∀ id pid, step ≠ .reap id pid) -> (∀ retained, step ≠ .conclude retained) ->
      (next.unconcluded = state.unconcluded ∧
        (∀ id pid job started, step = .reap id pid ->
          state.table.find id = some job -> job.running = some started ->
          started.pid ≠ pid) ∧
        ∀ retained, step ≠ .conclude retained) :=
    fun same unreaped unconcluding =>
      ⟨same, fun id pid _ _ reaps => absurd reaps (unreaped id pid), unconcluding⟩
  have silent : ∀ {task : Task} {rest : Multiset Task},
      state.Pending task rest -> task.conclusion = none ->
      state.tasks.filterMap Task.conclusion = rest.filterMap Task.conclusion := by
    intro task rest pending none
    rw [pending, filterMap_conclusion_cons, none]
    exact zero_add _
  cases step with
  | spawn id uid anonymous cmd =>
      obtain ⟨counter, -, -, rfl⟩ := steps
      refine .inl (quiet ?_ (by simp) (by simp))
      simp [unconcluded, filterMap_conclusion_cons, Task.conclusion]
  | build id sandbox cmd =>
      obtain ⟨rest, pending, -, rfl⟩ := steps
      refine .inl (quiet ?_ (by simp) (by simp))
      rw [unconcluded, unconcluded, silent pending rfl]
      cases cmd <;> simp [launchTask, filterMap_conclusion_cons, Task.conclusion]
  | failBuild id sandbox cmd =>
      obtain ⟨rest, pending, rfl⟩ := steps
      refine .inl (quiet ?_ (by simp) (by simp))
      rw [unconcluded, unconcluded, silent pending rfl]
  | refuseSize id sandbox cmd =>
      obtain ⟨rest, given, -, -, rfl⟩ := steps
      refine .inl (quiet ?_ (by simp) (by simp))
      rw [unconcluded, unconcluded, given]
      cases cmd <;> simp [launchTask, filterMap_conclusion_cons, Task.conclusion]
  | startIn id cmd =>
      obtain ⟨job, -, -, -, -, rfl⟩ := steps
      refine .inl (quiet ?_ (by simp) (by simp))
      simp [unconcluded, filterMap_conclusion_cons, Task.conclusion]
  | waited id cmd origin =>
      obtain ⟨-, rest, pending, rfl⟩ := steps
      refine .inl (quiet ?_ (by simp) (by simp))
      rw [unconcluded, unconcluded, silent pending rfl]
      simp [filterMap_conclusion_cons, Task.conclusion]
  | prepare id cmd origin owned =>
      obtain ⟨rest, pending, rfl⟩ := steps
      refine .inl (quiet ?_ (by simp) (by simp))
      rw [unconcluded, unconcluded, silent pending rfl]
      dsimp only
      split
      · simp [filterMap_conclusion_cons, Task.conclusion]
      · cases owned <;>
          simp [failureTask, filterMap_conclusion_cons, Task.conclusion]
  | launch id cmd origin sandbox owned pid plan =>
      obtain ⟨rest, pending, rfl⟩ := steps
      refine .inl (quiet ?_ (by simp) (by simp))
      rw [unconcluded, unconcluded, silent pending rfl]
      simp [filterMap_conclusion_cons, Task.conclusion]
  | failLaunch id cmd origin sandbox owned tree cleared =>
      obtain ⟨rest, pending, rfl⟩ := steps
      refine .inl (quiet ?_ (by simp) (by simp))
      rw [unconcluded, unconcluded, silent pending rfl]
      cases owned <;>
        simp [failureTask, filterMap_conclusion_cons, Task.conclusion]
  | publish id origin started killed =>
      obtain ⟨rest, pending, rfl⟩ := steps
      refine .inl (quiet ?_ (by simp) (by simp))
      rw [unconcluded, unconcluded, silent pending rfl]
      simp [filterMap_conclusion_cons, Task.conclusion]
  | reportFailure id origin =>
      obtain ⟨rest, pending, rfl⟩ := steps
      refine .inl (quiet ?_ (by simp) (by simp))
      rw [unconcluded_takeClosable, unconcluded, unconcluded, silent pending rfl]
  | reap id pid =>
      obtain ⟨rest, pending, ⟨job, started, found, running, same, rfl⟩ |
        ⟨other, rfl⟩⟩ := steps
      · refine .inr (.inl ⟨id, pid, job, started, rfl, found, running, same, ?_⟩)
        rw [unconcluded, unconcluded, silent pending rfl]
        simp [Task.conclusion]
      · refine .inl ⟨?_, ?_, by simp⟩
        · rw [unconcluded, unconcluded, silent pending rfl]
        · rintro _ _ job started ⟨⟩ found running
          exact other job found started running
  | submit conclusion =>
      obtain ⟨rest, pending, rfl⟩ := steps
      refine .inl (quiet ?_ (by simp) (by simp))
      have queue : (state.queue.submit conclusion).pending =
          state.queue.pending ++ [conclusion] := by
        rw [ConclusionQueue.submit, opened]
        rfl
      rw [unconcluded, unconcluded, pending, filterMap_conclusion_cons]
      dsimp only
      rw [queue, ← Multiset.coe_add]
      simp only [Task.conclusion, Option.toList_some]
      ac_rfl
  | take =>
      obtain ⟨conclusion, rest, taking, pending, rfl⟩ := steps
      refine .inl (quiet ?_ (by simp) (by simp))
      rw [unconcluded, unconcluded, pending, taking, ← List.singleton_append,
        ← Multiset.coe_add]
      simp only [ConcludeTask.conclusion, Option.toList_some, Option.toList_none,
        Multiset.coe_nil, add_zero]
      ac_rfl
  | conclude retained =>
      obtain ⟨conclusion, concluding, rfl⟩ := steps
      refine .inr (.inr ⟨retained, conclusion, rfl, concluding, ?_⟩)
      rw [unconcluded, unconcluded, concluding]
      simp only [ConcludeTask.conclusion, Option.toList_some, Option.toList_none,
        Multiset.coe_nil, add_zero, Multiset.coe_singleton]
      rw [add_comm, Multiset.singleton_add]
  | finish =>
      obtain ⟨id, retained, reporting, rfl⟩ := steps
      refine .inl (quiet ?_ (by simp) (by simp))
      simp [unconcluded, reporting, ConcludeTask.conclusion, ConclusionQueue.finish]
  | checkClose =>
      refine .inl (quiet ?_ (by simp) (by simp))
      obtain ⟨id, retained, closing, ⟨-, rfl⟩ | ⟨sandbox, -, -, ⟨-, rfl⟩ | ⟨-, rfl⟩⟩⟩ :=
        checkClose_cases steps <;>
        simp [unconcluded, closing, ConcludeTask.conclusion]
  | reclaimConcluded =>
      obtain ⟨sandbox, reclaiming, rfl⟩ := steps
      refine .inl (quiet ?_ (by simp) (by simp))
      simp [unconcluded, closeSandbox, reclaiming, ConcludeTask.conclusion]
  | stop id force =>
      obtain ⟨job, -, -, rfl⟩ := steps
      refine .inl (quiet ?_ (by simp) (by simp))
      split_ifs
      · exact unconcluded_takeClosable _ id
      · rfl
  | reclaim sandbox =>
      obtain ⟨rest, pending, rfl⟩ := steps
      refine .inl (quiet ?_ (by simp) (by simp))
      rw [unconcluded, unconcluded, silent pending rfl]
      rfl
  | refuseSpawn id anonymous =>
      obtain ⟨counter, -, rfl⟩ := steps
      exact .inl (quiet rfl (by simp) (by simp))
  | keep id =>
      obtain rfl := steps
      exact .inl (quiet rfl (by simp) (by simp))
  | closeSandbox sandbox =>
      obtain rfl := steps
      exact .inl (quiet rfl (by simp) (by simp))
  | cancel | killAll | releaseAll =>
      obtain rfl := steps
      exact .inl (quiet rfl (by simp) (by simp))

end JobState

/-- A section that neither publishes nor reaps leaves what runs in a row. -/
theorem JobStep.isSome_running_onRow
    {step : JobStep}
    (unpublishing : ∀ id origin started killed,
      step ≠ .publish id origin started killed)
    (unreaping : ∀ id pid, step ≠ .reap id pid)
    (row : Job) : (step.onRow row).running.isSome = row.running.isSome := by
  cases step with
  | publish => exact absurd rfl (unpublishing _ _ _ _)
  | reap => exact absurd rfl (unreaping _ _)
  | stop id force =>
      rw [onRow, Job.named]
      split_ifs
      · cases force
        · rfl
        · exact Option.isSome_map
      · rfl
  | killAll killable =>
      simp only [onRow]
      split_ifs
      · exact Option.isSome_map
      · rfl
  | failLaunch id cmd origin sandbox owned tree cleared =>
      cases cleared
      · rfl
      · simp [onRow, Job.named, Job.clear, apply_ite Job.running]
  | keep id => simp [onRow, Job.named, Job.keep, apply_ite Job.running]
  | build | startIn | reportFailure | releaseAll =>
      simp [onRow, Job.named, Job.build, Job.start, Job.drain, Job.release,
        apply_ite Job.running]
  | spawn | refuseSpawn | failBuild | refuseSize | waited | prepare | launch
  | submit | take | conclude | finish | checkClose | reclaimConcluded | reclaim
  | closeSandbox | cancel => rfl

/-! ## Steps that are about no command -/

/-- Whether a delivery announces what was concluded. -/
def Delivery.concludes (delivery : Delivery) : Bool :=
  delivery.source = some .conclusion

namespace DeliveryState

/-- A row is busy while its command runs or is unconcluded. -/
def Busy (state : DeliveryState) (job : Job) : Prop :=
  job.running.isSome ∨ ∃ conclusion, state.jobs.Unconcluded conclusion ∧
    conclusion.id = job.id

/-- A step that neither starts, ends nor announces a command, nor hands a
callback to one. -/
structure Quiet (state next : DeliveryState) : Prop where
  rows : ∀ job ∈ state.jobs.table.rows, state.Busy job ->
    ∃ after ∈ next.jobs.table.rows, after.id = job.id ∧
      after.sandbox = job.sandbox ∧ after.running.isSome = job.running.isSome
  runs : ∀ after ∈ next.jobs.table.rows, after.running.isSome ->
    ∃ job ∈ state.jobs.table.rows, job.sandbox = after.sandbox ∧
      job.running.isSome
  unconcluded : next.jobs.unconcluded = state.jobs.unconcluded
  reporting : (∃ delivery ∈ state.deliveries, delivery.concludes) ->
    ∀ id retained, state.jobs.concluder = .reporting id retained ->
      next.jobs.concluder = .reporting id retained
  conclusions : next.deliveries.filter (fun delivery => delivery.concludes) =
    state.deliveries.filter fun delivery => delivery.concludes
  launches : ∀ origin shell exitCode done,
    .finishing .launch origin shell exitCode (some done) ∈ next.deliveries ->
      .finishing .launch origin shell exitCode (some done) ∈ state.deliveries
  dones : ∀ uid done, next.dones uid = some done -> state.dones uid = some done
  registered : state.registered ⊆ next.registered
  called : next.called = state.called
  told : next.told.filterMap FrontendEvent.finishedShell =
    state.told.filterMap FrontendEvent.finishedShell

variable {state next : DeliveryState}

/-- What a step leaves of the rows when it changes none of them. -/
theorem rows_of_same
    {jobs : JobState}
    (same : jobs.table.rows = state.jobs.table.rows) :
    (∀ job ∈ state.jobs.table.rows, state.Busy job ->
      ∃ after ∈ jobs.table.rows, after.id = job.id ∧
        after.sandbox = job.sandbox ∧
        after.running.isSome = job.running.isSome) ∧
    ∀ after ∈ jobs.table.rows, after.running.isSome ->
      ∃ job ∈ state.jobs.table.rows, job.sandbox = after.sandbox ∧
        job.running.isSome := by
  rw [same]
  exact ⟨fun job member _ => ⟨job, member, rfl, rfl, rfl⟩,
    fun job member runs => ⟨job, member, rfl, runs⟩⟩

/-- A delivery that announces no conclusion begins or ends. -/
theorem filter_concludes_cons
    {delivery : Delivery}
    (other : delivery.concludes = false)
    (rest : Multiset Delivery) :
    (delivery ::ₘ rest).filter (fun delivery => delivery.concludes) =
      rest.filter fun delivery => delivery.concludes :=
  Multiset.filter_cons_of_neg _ (by simp [other])

/-- What a section begins, but for a conclusion, announces none. -/
theorem filter_concludes_begun
    {step : JobStep}
    {exitCode : Int}
    (unconcluding : ∀ retained, step ≠ .conclude retained) :
    (state.begun exitCode step).filter (fun delivery => delivery.concludes) =
      0 := by
  rw [Multiset.filter_eq_nil]
  intro delivery begun
  obtain ⟨_, _, _, -, rfl⟩ | ⟨_, _, _, -, rfl⟩ | ⟨_, _, _, _, _, _, -, rfl⟩ |
    ⟨_, _, _, _, -, rfl⟩ | ⟨retained, _, _, same, -, -, -⟩ := begun_cases begun
  · exact Bool.false_ne_true
  · exact Bool.false_ne_true
  · exact Bool.false_ne_true
  · exact Bool.false_ne_true
  · exact absurd same (unconcluding retained)

theorem notMem_begun
    {step : JobStep}
    {exitCode : Int}
    {origin shell : Sandbox}
    {code : Int}
    {done : Option Nat} :
    .finishing .launch origin shell code done ∉ state.begun exitCode step := by
  intro begun
  obtain ⟨_, _, _, -, same⟩ | ⟨_, _, _, -, same⟩ | ⟨_, _, _, _, _, _, -, same⟩ |
    ⟨_, _, _, _, -, same⟩ | ⟨_, _, _, -, -, -, same⟩ := begun_cases begun <;>
    cases same

/-- What a section leaves of the rows, and what it adds, when it neither
publishes nor reaps. -/
theorem rows_of_section
    (formed : state.jobs.WellFormed)
    {step : JobStep}
    {jobs : JobState}
    (steps : state.jobs.Steps step jobs)
    (unpublishing : ∀ id origin started killed,
      step ≠ .publish id origin started killed)
    (unreaping : ∀ id pid, step ≠ .reap id pid)
    (keeps : ∀ job ∈ state.jobs.table.rows, state.jobs.Removes step job ->
      ¬ state.Busy job) :
    (∀ job ∈ state.jobs.table.rows, state.Busy job ->
      ∃ after ∈ jobs.table.rows, after.id = job.id ∧
        after.sandbox = job.sandbox ∧
        after.running.isSome = job.running.isSome) ∧
    ∀ after ∈ jobs.table.rows, after.running.isSome ->
      ∃ job ∈ state.jobs.table.rows, job.sandbox = after.sandbox ∧
        job.running.isSome := by
  by_cases spawns : ∃ id uid anonymous cmd, step = .spawn id uid anonymous cmd
  · obtain ⟨id, uid, anonymous, cmd, rfl⟩ := spawns
    obtain ⟨counter, -, -, rfl⟩ := steps
    refine ⟨fun job member _ =>
      ⟨job, List.mem_append_left _ member, rfl, rfl, rfl⟩, fun job member runs => ?_⟩
    rcases List.mem_append.mp member with old | new
    · exact ⟨job, old, rfl, runs⟩
    · obtain rfl := List.mem_singleton.mp new
      exact absurd runs Bool.false_ne_true
  · obtain ⟨fewer, kept⟩ := JobState.onRow_of_step formed steps
      fun id uid anonymous cmd same => spawns ⟨id, uid, anonymous, cmd, same⟩
    have running := JobStep.isSome_running_onRow unpublishing unreaping
    refine ⟨fun job member busy => ?_, fun after member runs => ?_⟩
    · have stays := (kept job member).resolve_right fun removed =>
        keeps job member removed busy
      exact ⟨_, stays, (step.keeps_onRow job).1, (step.keeps_onRow job).2,
        running job⟩
    · obtain ⟨job, old, rfl⟩ := List.mem_map.mp (fewer.subset member)
      exact ⟨job, old, (step.keeps_onRow job).2.symm, running job ▸ runs⟩

/-- Before a completion is announced the conclusion task goes no further. -/
theorem reporting_of_section
    {step : JobStep}
    {done : Option Nat}
    {jobs : JobState}
    (steps : state.jobs.Steps step jobs)
    (ready : state.Ready done step)
    (concludes : ∃ delivery ∈ state.deliveries, delivery.concludes)
    {id : String}
    {retained : Bool}
    (reporting : state.jobs.concluder = .reporting id retained) :
    jobs.concluder = .reporting id retained := by
  obtain same | moves := JobState.concluder_of_step steps
  · exact same.trans reporting
  · rw [reporting] at moves
    obtain ⟨rfl, -⟩ := moves
    obtain ⟨delivery, member, holds⟩ := concludes
    exact absurd (of_decide_eq_true holds) (ready delivery member)

/-- A section that concludes nothing adds no completion of a conclusion. -/
theorem filter_concludes_of_section
    (step : JobStep)
    (done : Option Nat)
    (exitCode : Int)
    (jobs : JobState)
    (unconcluding : ∀ retained, step ≠ .conclude retained) :
    ((state.after step done exitCode jobs).deliveries.filter fun delivery =>
        delivery.concludes) =
      state.deliveries.filter fun delivery => delivery.concludes := by
  change (state.begun exitCode step + state.deliveries).filter _ = _
  rw [Multiset.filter_add, filter_concludes_begun unconcluding, zero_add]

/-- A section announces no failed launch. -/
theorem mem_launches_of_section
    {step : JobStep}
    {given : Option Nat}
    {exitCode : Int}
    {jobs : JobState}
    {origin shell : Sandbox}
    {code : Int}
    {done : Option Nat}
    (member : .finishing .launch origin shell code done ∈
      (state.after step given exitCode jobs).deliveries) :
    .finishing .launch origin shell code done ∈ state.deliveries :=
  (Multiset.mem_add.mp member).resolve_left notMem_begun

/-- A section that concludes nothing and adds no callback is quiet if it leaves
the rows and what is unconcluded. -/
theorem quiet_of_rows
    {step : JobStep}
    {done : Option Nat}
    {exitCode : Int}
    {jobs : JobState}
    (steps : state.jobs.Steps step jobs)
    (ready : state.Ready done step)
    (unconcluded : jobs.unconcluded = state.jobs.unconcluded)
    (unconcluding : ∀ retained, step ≠ .conclude retained)
    (dones : ∀ uid callback, state.donesAfter done step uid = some callback ->
      state.dones uid = some callback)
    (rows : (∀ job ∈ state.jobs.table.rows, state.Busy job ->
        ∃ after ∈ jobs.table.rows, after.id = job.id ∧
          after.sandbox = job.sandbox ∧
          after.running.isSome = job.running.isSome) ∧
      ∀ after ∈ jobs.table.rows, after.running.isSome ->
        ∃ job ∈ state.jobs.table.rows, job.sandbox = after.sandbox ∧
          job.running.isSome) :
    state.Quiet (state.after step done exitCode jobs) := by
  refine ⟨rows.1, rows.2, unconcluded,
    fun concludes _ _ => reporting_of_section steps ready concludes,
    filter_concludes_of_section step done exitCode jobs unconcluding,
    fun _ _ _ _ => mem_launches_of_section, dones, ?_, rfl, rfl⟩
  cases step with
  | publish => exact List.subset_append_right _ _
  | _ => exact List.Subset.refl _

/-- A section that neither publishes, reaps nor concludes and removes no busy row
is quiet. -/
theorem quiet_of_section
    (formed : state.jobs.WellFormed)
    {step : JobStep}
    {done : Option Nat}
    {exitCode : Int}
    {jobs : JobState}
    (steps : state.jobs.Steps step jobs)
    (ready : state.Ready done step)
    (unconcluded : jobs.unconcluded = state.jobs.unconcluded)
    (unpublishing : ∀ id origin started killed,
      step ≠ .publish id origin started killed)
    (unreaping : ∀ id pid, step ≠ .reap id pid)
    (unconcluding : ∀ retained, step ≠ .conclude retained)
    (keeps : ∀ job ∈ state.jobs.table.rows, state.jobs.Removes step job ->
      ¬ state.Busy job) :
    state.Quiet (state.after step done exitCode jobs) := by
  refine quiet_of_rows steps ready unconcluded unconcluding
    (fun uid callback holds => ?_)
    (rows_of_section formed steps unpublishing unreaping keeps)
  cases step with
  | publish => exact absurd rfl (unpublishing _ _ _ _)
  | conclude => exact absurd rfl (unconcluding _)
  | killAll => contradiction
  | _ => exact holds

/-- A launch that finds no row is quiet. -/
theorem quiet_of_publish
    {id : String}
    {origin : Sandbox}
    {started : StartedCmd}
    {killed : Bool}
    {done : Option Nat}
    {exitCode : Int}
    {jobs : JobState}
    (steps : state.jobs.Steps (.publish id origin started killed) jobs)
    (ready : state.Ready done (.publish id origin started killed))
    (unconcluded : jobs.unconcluded = state.jobs.unconcluded)
    (missing : state.row id = none) :
    state.Quiet (state.after (.publish id origin started killed) done exitCode
      jobs) := by
  refine quiet_of_rows steps ready unconcluded (by simp)
    (fun uid callback holds => ?_) (rows_of_same ?_)
  · simpa only [donesAfter, missing] using holds
  · obtain ⟨rest, -, rfl⟩ := steps
    refine (List.map_congr_left fun job member => ?_).trans (List.map_id' _)
    have apart : job.id ≠ id := by
      rw [row, JobTable.find, List.find?_eq_none] at missing
      simpa using missing job member
    exact if_neg apart

/-- A watcher that finds another command, or none, is quiet. -/
theorem quiet_of_reap
    {id : String}
    {pid : Nat}
    {done : Option Nat}
    {exitCode : Int}
    {jobs : JobState}
    (steps : state.jobs.Steps (.reap id pid) jobs)
    (ready : state.Ready done (.reap id pid))
    (unconcluded : jobs.unconcluded = state.jobs.unconcluded)
    (other : ∀ job started, state.jobs.table.find id = some job ->
      job.running = some started -> started.pid ≠ pid) :
    state.Quiet (state.after (.reap id pid) done exitCode jobs) := by
  refine quiet_of_rows steps ready unconcluded (by simp)
    (fun _ _ holds => holds) (rows_of_same ?_)
  obtain ⟨rest, -, ⟨job, started, found, running, same, -⟩ | ⟨-, rfl⟩⟩ := steps
  · exact absurd same (other job started found running)
  · rfl

/-! ## Steps outside the locks -/

/-- A step outside the locks that leaves the jobs alone is quiet, if it adds no
callback and announces no completion. -/
theorem quiet_of_same
    (jobs : next.jobs = state.jobs)
    (conclusions : next.deliveries.filter (fun delivery => delivery.concludes) =
      state.deliveries.filter fun delivery => delivery.concludes)
    (launches : ∀ origin shell exitCode done,
      .finishing .launch origin shell exitCode (some done) ∈ next.deliveries ->
        .finishing .launch origin shell exitCode (some done) ∈ state.deliveries)
    (dones : ∀ uid done, next.dones uid = some done ->
      state.dones uid = some done)
    (registered : next.registered = state.registered)
    (called : next.called = state.called)
    (told : next.told.filterMap FrontendEvent.finishedShell =
      state.told.filterMap FrontendEvent.finishedShell) : state.Quiet next where
  rows := (rows_of_same (congrArg (fun jobs => jobs.table.rows) jobs)).1
  runs := (rows_of_same (congrArg (fun jobs => jobs.table.rows) jobs)).2
  unconcluded := congrArg JobState.unconcluded jobs
  reporting _ _ _ reporting := jobs ▸ reporting
  conclusions := conclusions
  launches := launches
  dones := dones
  registered := registered ▸ List.Subset.refl _
  called := called
  told := told

/-- A terminal that cannot be resized takes no command with it. -/
theorem quiet_of_refuseSize
    {sandbox : Sandbox}
    (steps : state.Steps (.refuseSize sandbox) next)
    (keeps : ∀ job ∈ state.jobs.table.rows, job.id = sandbox.id ->
      ¬ state.Busy job) : state.Quiet next := by
  obtain ⟨rest, under, rfl⟩ := steps
  constructor
  · intro job member busy
    refine ⟨job, (JobTable.mem_remove_or member).resolve_right fun gone => ?_,
      rfl, rfl, rfl⟩
    exact keeps job member (of_decide_eq_true gone) busy
  · intro job member runs
    exact ⟨job, (state.jobs.table.rows_remove_sublist _).subset member, rfl,
      runs⟩
  · have same : (state.jobs.tasks.filter fun task =>
        task.launchOf sandbox = false).filterMap Task.conclusion =
          state.jobs.tasks.filterMap Task.conclusion := by
      induction state.jobs.tasks using Multiset.induction with
      | empty => rfl
      | cons task rest ih =>
          by_cases launch : task.launchOf sandbox = false
          · rw [Multiset.filter_cons_of_pos rest launch,
              JobState.filterMap_conclusion_cons,
              JobState.filterMap_conclusion_cons, ih]
          · rw [Multiset.filter_cons_of_neg rest launch,
              JobState.filterMap_conclusion_cons, ih]
            cases task <;> simp [Task.launchOf, Task.conclusion] at launch ⊢
    rw [JobState.unconcluded, JobState.unconcluded, same]
  · exact fun _ _ _ reporting => reporting
  · rw [under, filter_concludes_cons rfl]
  · intro origin shell exitCode done member
    exact under ▸ Multiset.mem_cons_of_mem member
  · exact fun _ _ holds => holds
  · exact List.Subset.refl _
  · rfl
  · rfl

/-- A failed launch that finds no callback calls none. -/
theorem quiet_of_deliverFailure
    {id : String}
    {origin : Sandbox}
    (steps : state.Steps (.deliverFailure id origin) next)
    (silent : ∀ job, state.row id = some job ->
      state.dones job.sandbox.uid = none) : state.Quiet next := by
  obtain ⟨rest, under, rfl⟩ := steps
  have delivered : ∀ delivery ∈ state.deliver .launch id origin (-1),
      ∃ shell, delivery = .finishing .launch origin shell (-1) none := by
    intro delivery member
    rw [deliver] at member
    cases found : state.row id with
    | none =>
        rw [found] at member
        exact absurd member (Multiset.notMem_zero _)
    | some job =>
        rw [found] at member
        rw [Multiset.mem_singleton.mp member, silent job found]
        exact ⟨job.sandbox, rfl⟩
  refine quiet_of_same rfl ?_ ?_ ?_ rfl rfl rfl
  · dsimp only
    rw [Multiset.filter_add, under, filter_concludes_cons rfl,
      Multiset.filter_eq_nil.mpr fun delivery member => ?_, zero_add]
    obtain ⟨shell, rfl⟩ := delivered delivery member
    exact Bool.false_ne_true
  · intro _ shell exitCode done member
    rcases Multiset.mem_add.mp member with new | old
    · obtain ⟨_, same⟩ := delivered _ new
      cases same
    · exact under ▸ Multiset.mem_cons_of_mem old
  · intro uid done holds
    dsimp only [silenced] at holds
    cases found : state.row id with
    | none => rwa [found] at holds
    | some job =>
        rw [found] at holds
        by_cases same : uid = job.sandbox.uid
        · simp [same] at holds
        · simpa [Function.update_of_ne same] using holds

/-- What is about no command is announced quietly. -/
theorem quiet_of_delivery
    {delivery : Delivery}
    {rest begins : Multiset Delivery}
    {events : List FrontendEvent}
    (under : state.Under delivery rest)
    (other : delivery.concludes = false)
    (begun : ∀ delivery ∈ begins, delivery.done = none ∧
      delivery.concludes = false)
    (quiet : events.filterMap FrontendEvent.finishedShell = []) :
    state.Quiet { state with
      deliveries := begins + rest
      told := state.told ++ events } := by
  refine quiet_of_same rfl ?_ ?_ (fun _ _ holds => holds) rfl rfl ?_
  · dsimp only
    rw [Multiset.filter_add, under, filter_concludes_cons other,
      Multiset.filter_eq_nil.mpr fun delivery member => ?_, zero_add]
    simp [(begun delivery member).2]
  · intro origin shell exitCode done member
    rcases Multiset.mem_add.mp member with new | old
    · exact absurd (begun _ new).1 (by simp [Delivery.done])
    · exact under ▸ Multiset.mem_cons_of_mem old
  · dsimp only
    rw [List.filterMap_append, quiet, List.append_nil]

end DeliveryState

end Shellmux
end Marsh
