import Marsh.Shellmux.EventOrder

/-!
# The storage of a closed job

A job's snapshot on disk has its row, its reclamation or a proof that was not
found to account for it, so its closing is announced after the reclamation.
-/

namespace Marsh
namespace Shellmux

open Library

namespace DeliveryState

/-- A closed job is to be reclaimed. -/
def Reclaiming (state : DeliveryState) (sandbox : Sandbox) : Prop :=
  Task.reclaiming sandbox ∈ state.jobs.tasks ∨
    state.jobs.concluder = .reclaiming sandbox

/-- The job cannot be announced closed: it is being built, its row's terminal,
pipe and shell are held, or no construction or pump of it is left. -/
def Unclosable (state : DeliveryState) (sandbox : Sandbox) : Prop :=
  (∃ id cmd, Task.building id sandbox cmd ∈ state.jobs.tasks) ∨
    state.producers sandbox.uid = some sandbox.uid ∨
      state.stages sandbox.uid = 0

/-- What accounts for the snapshot of a uid. -/
inductive Accounted (state : DeliveryState) (uid : String) : Prop
  | retained (kept : uid ∈ state.jobs.retained) : Accounted state uid
  | row {job : Job}
      (unreleased : ¬ state.Released)
      (member : job ∈ state.jobs.table.rows)
      (site : job.sandbox.uid = uid) : Accounted state uid
  | reclaiming {sandbox : Sandbox}
      (reclaiming : state.Reclaiming sandbox)
      (site : sandbox.uid = uid)
      (unclosable : state.Unclosable sandbox) : Accounted state uid

/-- Snapshots are of jobs that were issued and announced, and each is accounted
for. -/
structure Stored (state : DeliveryState) : Prop where
  orderly : state.Orderly
  virgin : ∀ sandbox, state.Unopened sandbox -> sandbox.uid ∉ state.jobs.trees
  planted : ∀ uid ∈ state.jobs.trees, uid ∈ state.jobs.issued
  accounted : ∀ uid ∈ state.jobs.trees, state.Accounted uid

namespace Stored

variable {state next : DeliveryState} {step : DeliveryStep}

/-- A snapshot was on disk before, or a launch that found its own row takes
it. -/
theorem trees_of_section
    (own : state.OwnRows)
    {step : JobStep}
    {jobs : JobState}
    (steps : state.jobs.Steps step jobs)
    {uid : String}
    (planted : uid ∈ jobs.trees) :
    uid ∈ state.jobs.trees ∨
      ∃ task ∈ state.jobs.tasks, ∃ origin, task.launchOrigin = some origin ∧
        step.consumes = some task ∧ origin.uid = uid := by
  have old : state.jobs.trees = jobs.trees -> uid ∈ state.jobs.trees :=
    fun same => same ▸ planted
  cases step with
  | launch id cmd origin sandbox owned pid plan =>
      obtain ⟨rest, pending, rfl⟩ := steps
      cases plan with
      | transaction =>
          rcases Finset.mem_insert.mp planted with rfl | old
          · exact .inr ⟨_, pending.self, origin, rfl, rfl,
              congrArg Sandbox.uid (own.sited.located _ pending.self).symm⟩
          · exact .inl old
      | bypass => exact .inl planted
  | failLaunch id cmd origin sandbox owned tree cleared =>
      obtain ⟨rest, pending, rfl⟩ := steps
      rcases tree with - | - | -
      · exact .inl planted
      · exact .inl (Finset.erase_subset _ _ planted)
      · rcases Finset.mem_insert.mp planted with rfl | old
        · exact .inr ⟨_, pending.self, origin, rfl, rfl,
            congrArg Sandbox.uid (own.sited.located _ pending.self).symm⟩
        · exact .inl old
  | reportFailure id origin =>
      obtain ⟨rest, -, rfl⟩ := steps
      obtain ⟨-, same⟩ | ⟨sandbox, -, same⟩ := JobState.takeClosable_cases _ id <;>
        exact .inl (by rwa [same] at planted)
  | stop id force =>
      obtain ⟨job, -, -, rfl⟩ := steps
      split_ifs at planted
      · obtain ⟨-, same⟩ | ⟨sandbox, -, same⟩ :=
          JobState.takeClosable_cases _ id <;>
          exact .inl (by rwa [same] at planted)
      · exact .inl planted
  | checkClose =>
      obtain ⟨id, retained, -, ⟨-, rfl⟩ | ⟨sandbox, -, -, ⟨-, rfl⟩ | ⟨-, rfl⟩⟩⟩ :=
        JobState.checkClose_cases steps <;> exact .inl planted
  | reclaim sandbox =>
      obtain ⟨rest, -, rfl⟩ := steps
      exact .inl (Finset.erase_subset _ _ planted)
  | reclaimConcluded =>
      obtain ⟨sandbox, -, rfl⟩ := steps
      exact .inl (Finset.erase_subset _ _ planted)
  | closeSandbox sandbox =>
      obtain rfl := steps
      exact .inl (Finset.erase_subset _ _ planted)
  | spawn | refuseSpawn | build | failBuild | refuseSize | startIn | waited
  | prepare | publish | reap | submit | take | conclude | finish | keep | cancel
  | killAll | releaseAll =>
      simp only [JobState.Steps] at steps
      grind

/-- A launch belongs to the row it began with. -/
theorem owner_of_launchOrigin
    {task : Task}
    {origin : Sandbox}
    (launches : task.launchOrigin = some origin) :
    ∃ id, task.owner = some (id, origin) := by
  cases task <;> simp only [Task.launchOrigin, reduceCtorEq, Option.some.injEq]
    at launches
  all_goals exact ⟨_, by rw [Task.owner, launches]⟩

/-- Outside the sections no snapshot is taken or removed, no reclamation begins
or ends, and none is kept for want of a proof. -/
theorem storage_of_step
    (steps : state.Steps step next)
    (outside : ∀ section_ done exitCode, step ≠ .job section_ done exitCode) :
    next.jobs.trees = state.jobs.trees ∧
      next.jobs.retained = state.jobs.retained ∧
      next.jobs.concluder = state.jobs.concluder ∧
      (∀ sandbox, Task.reclaiming sandbox ∈ state.jobs.tasks ->
        Task.reclaiming sandbox ∈ next.jobs.tasks) ∧
      ∀ id sandbox cmd, Task.building id sandbox cmd ∈ state.jobs.tasks ->
        Task.building id sandbox cmd ∈ next.jobs.tasks := by
  cases step with
  | job step done exitCode => exact absurd rfl (outside _ _ _)
  | refuseSize sandbox =>
      obtain ⟨rest, -, rfl⟩ := steps
      exact ⟨rfl, rfl, rfl,
        fun _ member => Multiset.mem_filter.mpr ⟨member, rfl⟩,
        fun _ _ _ member => Multiset.mem_filter.mpr ⟨member, rfl⟩⟩
  | abort =>
      obtain ⟨-, rfl⟩ := steps
      exact ⟨rfl, rfl, rfl,
        fun _ member => Multiset.mem_filter.mpr ⟨member, rfl⟩,
        fun _ _ _ member => Multiset.mem_filter.mpr ⟨member, rfl⟩⟩
  | announceOpened | deliverFailure | announceFinished | read | announceClosed
  | onFinish | join =>
      simp only [Steps] at steps
      grind

theorem planted_of_step
    (stored : state.Stored)
    (steps : state.Steps step next) :
    ∀ uid ∈ next.jobs.trees, uid ∈ next.jobs.issued := by
  intro uid member
  refine issued_of_step steps ?_
  cases step with
  | job step done exitCode =>
      obtain ⟨jobs, steps, -, rfl⟩ := steps
      obtain old | ⟨task, taskMember, origin, launches, -, rfl⟩ :=
        trees_of_section stored.orderly.own steps member
      · exact stored.planted uid old
      · obtain ⟨id, owner⟩ := owner_of_launchOrigin launches
        exact (stored.orderly.own.formed.owned task taskMember id origin owner).2
  | refuseSize | announceOpened | deliverFailure | announceFinished | read
  | announceClosed | onFinish | join | abort =>
      rw [(storage_of_step steps (by simp)).1] at member
      exact stored.planted uid member

/-- A job whose launch is in progress was opened. -/
theorem not_unopened_of_launch
    (orderly : state.Orderly)
    {task : Task}
    {origin sandbox : Sandbox}
    (member : task ∈ state.jobs.tasks)
    (launches : task.launchOrigin = some origin)
    (same : origin.uid = sandbox.uid) : ¬ state.Unopened sandbox := by
  intro unopened
  have told := orderly.active origin (.launch member launches)
  have none := orderly.fresh sandbox unopened
  exact List.ne_nil_of_mem (Orderly.mem_eventsOf.mpr ⟨told, same⟩) none

theorem virgin_of_step
    (stored : state.Stored)
    (steps : state.Steps step next) :
    ∀ sandbox, next.Unopened sandbox -> sandbox.uid ∉ next.jobs.trees := by
  intro sandbox unopened planted
  have orderly := stored.orderly
  obtain old | ⟨id, anonymous, cmd, done, exitCode, rfl, fresh⟩ :=
    unopened_of_step steps unopened
  · cases step with
    | job step done exitCode =>
        obtain ⟨jobs, steps, -, rfl⟩ := steps
        obtain before | ⟨task, member, origin, launches, -, same⟩ :=
          trees_of_section orderly.own steps planted
        · exact stored.virgin sandbox old before
        · exact not_unopened_of_launch orderly member launches same old
    | refuseSize | announceOpened | deliverFailure | announceFinished | read
    | announceClosed | onFinish | join | abort =>
        rw [(storage_of_step steps (by simp)).1] at planted
        exact stored.virgin sandbox old planted
  · obtain ⟨jobs, ⟨counter, -, -, rfl⟩, -, rfl⟩ := steps
    exact fresh (stored.planted _ planted)

/-- What a uid without a row holds is released by its reclamation only. -/
theorem producers_of_gone
    {step : JobStep}
    {jobs : JobState}
    (steps : state.jobs.Steps step jobs)
    {uid : String}
    (gone : ∀ job ∈ state.jobs.table.rows, job.sandbox.uid ≠ uid)
    (planted : uid ∈ jobs.trees) :
    state.producersAfter step uid = state.producers uid := by
  have row : ∀ {id : String} {job : Job}, state.row id = some job ->
      uid ≠ job.sandbox.uid :=
    fun found => (gone _ (JobTable.mem_of_find found)).symm
  have apart : ∀ {other : String}, uid ≠ other ->
      state.releases other uid = state.producers uid :=
    fun other => by rw [releases, Function.update_of_ne other]
  cases step with
  | build id sandbox cmd =>
      cases found : state.row id with
      | none => simp only [producersAfter, found]
      | some job =>
          simp only [producersAfter, found]
          rw [Function.update_of_ne (row found)]
  | failBuild id sandbox cmd =>
      cases found : state.row id with
      | none => simp only [producersAfter, found]
      | some job =>
          simp only [producersAfter, found]
          exact apart (row found)
  | reclaim sandbox =>
      obtain ⟨rest, -, rfl⟩ := steps
      refine apart ?_
      rintro rfl
      exact Finset.notMem_erase _ _ planted
  | reclaimConcluded =>
      obtain ⟨sandbox, reclaiming, rfl⟩ := steps
      simp only [producersAfter, reclaiming]
      refine apart ?_
      rintro rfl
      exact Finset.notMem_erase _ _ planted
  | closeSandbox sandbox =>
      obtain rfl := steps
      simp only [producersAfter]
      split_ifs
      · refine apart ?_
        rintro rfl
        exact Finset.notMem_erase _ _ planted
      · rfl
  | checkClose =>
      obtain ⟨id, retained, closing, -⟩ := JobState.checkClose_cases steps
      cases retained with
      | false => simp only [producersAfter, closing]
      | true =>
          simp only [producersAfter, closing]
          split_ifs with idle
          · cases takes : state.jobs.table.takeClosable id with
            | none => rfl
            | some taken =>
                obtain ⟨job, found, pair⟩ := Option.map_eq_some_iff.mp takes
                rw [← pair]
                exact apart (gone job (List.mem_of_find?_eq_some found)).symm
          · rfl
  | releaseAll =>
      simp only [producersAfter]
      rw [if_neg]
      intro held
      obtain ⟨job, member, same⟩ := List.any_eq_true.mp held
      exact gone job member (of_decide_eq_true same)
  | spawn | refuseSpawn | refuseSize | startIn | waited | prepare | launch
  | failLaunch | publish | reportFailure | reap | submit | take | conclude
  | finish | keep | stop | cancel | killAll => rfl

/-- A job stays unclosable while its construction and what it holds stay. -/
theorem unclosable_of_kept
    {step : JobStep}
    {done : Option Nat}
    {exitCode : Int}
    {jobs : JobState}
    (steps : state.jobs.Steps step jobs)
    {sandbox : Sandbox}
    (known : sandbox.uid ∈ state.jobs.issued)
    (building : ∀ id cmd, step.consumes ≠ some (.building id sandbox cmd))
    (holding : state.producersAfter step sandbox.uid =
      state.producers sandbox.uid)
    (unclosable : state.Unclosable sandbox) :
    (state.after step done exitCode jobs).Unclosable sandbox := by
  obtain ⟨id, cmd, builds⟩ | holds | none := unclosable
  · exact .inl ⟨id, cmd,
      JobState.mem_tasks_of_step steps builds (building id cmd)⟩
  · exact .inr (.inl (holding.trans holds))
  · refine .inr (.inr (Nat.le_zero.mp ((stages_of_section steps _ ?_).trans
      none.le)))
    rintro id anonymous cmd rfl
    obtain ⟨counter, -, fresh, -⟩ := steps
    exact fresh known

/-- A job without a row is not announced closed before it is reclaimed. -/
theorem unclosable_of_section
    (orderly : state.Orderly)
    {step : JobStep}
    {done : Option Nat}
    {exitCode : Int}
    {jobs : JobState}
    (steps : state.jobs.Steps step jobs)
    {sandbox : Sandbox}
    (gone : state.jobs.Gone sandbox)
    (planted : sandbox.uid ∈ jobs.trees)
    (unclosable : state.Unclosable sandbox) :
    (state.after step done exitCode jobs).Unclosable sandbox := by
  have holding : state.producersAfter step sandbox.uid =
      state.producers sandbox.uid := producers_of_gone steps gone.2 planted
  by_cases consumed : ∃ id cmd, step.consumes = some (.building id sandbox cmd)
  · obtain ⟨id, cmd, consumed⟩ := consumed
    cases step <;> simp only [JobStep.consumes, reduceCtorEq,
      Option.some.injEq, Task.building.injEq, Option.map_eq_some_iff,
      and_false, exists_false] at consumed
    · obtain ⟨rfl, site, rfl⟩ := consumed
      obtain ⟨rest, pending, found, -⟩ := steps
      obtain ⟨job, found⟩ := Option.isSome_iff_exists.mp found
      have own := orderly.own.sandbox_of_row (.task pending.self rfl) found
      exact absurd (congrArg Sandbox.uid (own.trans site))
        (gone.2 job (JobTable.mem_of_find found))
    · obtain ⟨rfl, site, rfl⟩ := consumed
      obtain ⟨rest, pending, rfl⟩ := steps
      rw [site] at pending
      refine .inr (.inr ?_)
      have single := orderly.single sandbox.uid
      rw [stages, show state.jobs.tasks = _ from pending, taskCount_cons,
        if_pos (by rfl)] at single
      change taskCount Task.buildingUid rest sandbox.uid +
        (0 + state.deliveries).countP _ = 0
      rw [zero_add]
      omega
  · exact unclosable_of_kept steps gone.1
      (fun id cmd same => consumed ⟨id, cmd, same⟩) holding unclosable

/-- A row whose job is not announced closed may be taken. -/
theorem unclosable_of_row
    (orderly : state.Orderly)
    (unreleased : ¬ state.Released)
    {job : Job}
    (member : job ∈ state.jobs.table.rows) : state.Unclosable job.sandbox := by
  obtain released | builds | holds := orderly.holding job member
  · exact absurd released unreleased
  · exact .inl builds
  · exact .inr (.inl holds)

/-- What is kept for want of a proof stays kept. -/
theorem retained_of_section
    {step : JobStep}
    {jobs : JobState}
    (steps : state.jobs.Steps step jobs)
    {uid : String}
    (kept : uid ∈ state.jobs.retained) : uid ∈ jobs.retained := by
  cases step with
  | checkClose =>
      obtain ⟨id, retained, -, ⟨-, rfl⟩ |
        ⟨sandbox, -, -, ⟨-, rfl⟩ | ⟨-, rfl⟩⟩⟩ := JobState.checkClose_cases steps
      · exact kept
      · exact List.mem_cons_of_mem _ kept
      · exact kept
  | reportFailure id origin =>
      obtain ⟨rest, -, rfl⟩ := steps
      obtain ⟨-, same⟩ | ⟨sandbox, -, same⟩ :=
        JobState.takeClosable_cases _ id <;> rwa [same]
  | stop id force =>
      obtain ⟨job, -, -, rfl⟩ := steps
      split_ifs
      · obtain ⟨-, same⟩ | ⟨sandbox, -, same⟩ :=
          JobState.takeClosable_cases _ id <;> rwa [same]
      · exact kept
  | spawn | refuseSpawn | build | failBuild | refuseSize | startIn | waited
  | prepare | launch | failLaunch | publish | reap | submit | take | conclude
  | finish | reclaimConcluded | keep | reclaim | closeSandbox | cancel | killAll
  | releaseAll =>
      simp only [JobState.Steps, JobState.closeSandbox] at steps
      grind

/-- Only the section that releases every terminal does. -/
theorem unreleased_of_section
    {step : JobStep}
    {done : Option Nat}
    {exitCode : Int}
    {jobs : JobState}
    (unreleased : ¬ state.Released)
    (other : step ≠ .releaseAll) :
    ¬ (state.after step done exitCode jobs).Released := by
  cases step with
  | releaseAll => exact absurd rfl other
  | cancel => simp [after, JobStep.phase, Released]
  | killAll => simp [after, JobStep.phase, Released]
  | spawn | refuseSpawn | build | failBuild | refuseSize | startIn | waited
  | prepare | launch | failLaunch | publish | reportFailure | reap | submit
  | take | conclude | finish | checkClose | reclaimConcluded | keep | stop
  | reclaim | closeSandbox => exact unreleased

/-- A job taken out of the table is the one that has the name. -/
theorem sandbox_of_takes
    (formed : state.jobs.WellFormed)
    {change : Job -> Job}
    (keeps : Job.Keeps change)
    {job : Job}
    (member : job ∈ state.jobs.table.rows)
    {sandbox : Sandbox}
    (takes : (state.jobs.table.change change).takeClosable job.id =
      some (sandbox,
        (state.jobs.table.change change).remove (JobTable.closable job.id))) :
    sandbox = job.sandbox := by
  obtain ⟨taken, takenMember, named, site, -⟩ :=
    JobState.exists_row_of_takeClosable keeps takes
  rw [← site, formed.eq_of_id takenMember member named]

/-- A job is in the table after it was to be taken out, or is to be
reclaimed. -/
theorem row_or_reclaiming
    (formed : state.jobs.WellFormed)
    {change : Job -> Job}
    (keeps : Job.Keeps change)
    {job : Job}
    (member : job ∈ state.jobs.table.rows)
    {base : JobState}
    (table : base.table = state.jobs.table.update job.id change) :
    (∃ row ∈ (base.takeClosable job.id).table.rows,
        row.sandbox = job.sandbox) ∨
      Task.reclaiming job.sandbox ∈ (base.takeClosable job.id).tasks := by
  obtain ⟨-, same⟩ | ⟨sandbox, takes, same⟩ := base.takeClosable_cases job.id
  · refine .inl ⟨Job.named job.id change job, ?_, ((keeps.named job.id) job).2⟩
    rw [same, table]
    exact List.mem_map_of_mem member
  · rw [table] at takes
    obtain rfl := sandbox_of_takes formed (keeps.onName job.id) member takes
    rw [same]
    exact .inr (Multiset.mem_cons_self _ _)

/-- A row that a section takes out of the table is to be reclaimed, or is kept
for want of a proof. -/
theorem accounted_of_row
    (stored : state.Stored)
    {step : JobStep}
    {done : Option Nat}
    {exitCode : Int}
    {jobs : JobState}
    (steps : state.jobs.Steps step jobs)
    (ready : state.Ready done step)
    (unreleased : ¬ state.Released)
    (other : step ≠ .releaseAll)
    {job : Job}
    (member : job ∈ state.jobs.table.rows)
    (planted : job.sandbox.uid ∈ jobs.trees) :
    (state.after step done exitCode jobs).Accounted job.sandbox.uid := by
  have orderly := stored.orderly
  have own := orderly.own
  have formed := own.formed
  by_cases stays : ∃ row ∈ jobs.table.rows, row.sandbox = job.sandbox
  · obtain ⟨row, rowMember, site⟩ := stays
    exact .row (unreleased_of_section unreleased other) rowMember
      (congrArg Sandbox.uid site)
  have removes : state.jobs.Removes step job := by
    by_contra unremoved
    exact stays (Orderly.row_of_section own steps member unremoved)
  have kept : (∀ id cmd, step.consumes ≠ some (.building id job.sandbox cmd)) ->
      state.producersAfter step = state.producers ->
      (state.after step done exitCode jobs).Unclosable job.sandbox :=
    fun building holding => unclosable_of_kept steps
      (formed.known job member) building (congrFun holding _)
      (unclosable_of_row orderly unreleased member)
  cases step with
  | failBuild id sandbox cmd =>
      obtain ⟨rest, pending, rfl⟩ := steps
      have site := own.named _ _ (.task pending.self rfl) job member removes
      rw [site] at planted
      exact absurd planted (stored.virgin sandbox (.inl ⟨id, cmd, pending.self⟩))
  | reportFailure id origin =>
      have unclosable := kept (by simp [JobStep.consumes]) rfl
      obtain ⟨rest, pending, rfl⟩ := steps
      obtain ⟨rfl, -⟩ := removes
      exact .reclaiming (.inl ((row_or_reclaiming formed Job.keeps_drain member
        rfl).resolve_left stays)) rfl unclosable
  | stop id force =>
      have unclosable := kept (by simp [JobStep.consumes]) rfl
      obtain ⟨row, found, -, rfl⟩ := steps
      obtain ⟨idle, rfl, -⟩ := removes
      rw [if_pos idle] at stays unclosable ⊢
      exact .reclaiming (.inl ((row_or_reclaiming formed (Job.keeps_stop force)
        member rfl).resolve_left stays)) rfl unclosable
  | checkClose =>
      obtain ⟨id, retained, closing, ⟨-, rfl⟩ | ⟨sandbox, -, takes, taken⟩⟩ :=
        JobState.checkClose_cases steps
      · exact absurd ⟨job, member, rfl⟩ stays
      obtain ⟨-, ⟨other, reporting⟩, -⟩ := removes
      rw [closing] at reporting
      obtain ⟨rfl, -⟩ := ConcludeTask.closing.inj reporting
      have site : sandbox = job.sandbox := by
        obtain ⟨row, found, pair⟩ := Option.map_eq_some_iff.mp takes
        rw [← (Prod.mk.inj pair).1]
        refine congrArg Job.sandbox (formed.eq_of_id
          (List.mem_of_find?_eq_some found) member ?_)
        exact (JobTable.idle_of_closable (List.find?_some found)).1
      obtain ⟨rfl, rfl⟩ | ⟨rfl, rfl⟩ := taken
      · exact .retained (List.mem_cons.mpr (.inl (by rw [site])))
      · refine .reclaiming (.inr (congrArg ConcludeTask.reclaiming site)) rfl
          (kept (by simp [JobStep.consumes]) ?_)
        simp only [producersAfter, closing]
  | closeSandbox sandbox =>
      obtain rfl := steps
      rw [show job.sandbox.uid = sandbox.uid from removes] at planted
      exact absurd planted (Finset.notMem_erase _ _)
  | refuseSize => exact ready.elim
  | spawn | refuseSpawn | build | startIn | waited | prepare | launch
  | failLaunch | publish | reap | submit | take | conclude | finish
  | reclaimConcluded | keep | reclaim | cancel | killAll | releaseAll =>
      exact removes.elim

/-- What accounts for a snapshot accounts for it after a section, or a
reclamation takes its place. -/
theorem accounted_of_section
    (stored : state.Stored)
    {step : JobStep}
    {done : Option Nat}
    {exitCode : Int}
    {jobs : JobState}
    (steps : state.jobs.Steps step jobs)
    (ready : state.Ready done step)
    (sessions : state.KeepsSessions (.job step done exitCode))
    {uid : String}
    (planted : uid ∈ jobs.trees)
    (accounted : state.Accounted uid) :
    (state.after step done exitCode jobs).Accounted uid := by
  have orderly := stored.orderly
  have own := orderly.own
  cases accounted with
  | retained kept => exact .retained (retained_of_section steps kept)
  | @row job unreleased member site =>
      obtain rfl := site
      by_cases releases : step = .releaseAll
      · obtain rfl := releases
        refine .retained (retained_of_section steps ?_)
        obtain rfl := steps
        exact (sessions.2 job member).resolve_left fun absent => absent planted
      · exact accounted_of_row stored steps ready unreleased releases member planted
  | @reclaiming sandbox reclaiming site unclosable =>
      obtain rfl := site
      have gone := own.formed.gone sandbox reclaiming
      refine .reclaiming ?_ rfl
        (unclosable_of_section orderly steps gone planted unclosable)
      obtain task | concluder := reclaiming
      · refine .inl (JobState.mem_tasks_of_step steps task fun consumed => ?_)
        cases step <;> simp only [JobStep.consumes, reduceCtorEq,
          Option.some.injEq, Task.reclaiming.injEq, Option.map_eq_some_iff,
          and_false, exists_false] at consumed
        obtain rfl := consumed
        obtain ⟨rest, -, rfl⟩ := steps
        exact Finset.notMem_erase _ _ planted
      · refine .inr ?_
        obtain same | ended := JobState.concluder_of_step steps
        · exact same.trans concluder
        · simp only [concluder] at ended
          obtain rfl := ended
          obtain ⟨other, reclaims, rfl⟩ := steps
          rw [concluder] at reclaims
          obtain rfl := ConcludeTask.reclaiming.inj reclaims
          exact absurd planted (Finset.notMem_erase _ _)

/-- A snapshot that a launch takes is that of its row. -/
theorem accounted_of_launch
    (stored : state.Stored)
    {step : JobStep}
    {done : Option Nat}
    {exitCode : Int}
    {jobs : JobState}
    (steps : state.jobs.Steps step jobs)
    (ready : state.Ready done step)
    {task : Task}
    (member : task ∈ state.jobs.tasks)
    {origin : Sandbox}
    (launches : task.launchOrigin = some origin)
    (consumed : step.consumes = some task)
    (planted : origin.uid ∈ jobs.trees) :
    (state.after step done exitCode jobs).Accounted origin.uid := by
  have orderly := stored.orderly
  obtain ⟨job, row, rfl⟩ := orderly.own.sited.placed task member origin launches
  refine accounted_of_row stored steps ready (fun released => ?_) ?_ row planted
  · have watches := (orderly.joined (.inr released)).watches task member
    cases task <;> contradiction
  · rintro rfl
    contradiction

/-- Outside the sections what accounts for a snapshot stays. -/
theorem accounted_of_outside
    (stored : state.Stored)
    (steps : state.Steps step next)
    (outside : ∀ inner done exitCode, step ≠ .job inner done exitCode)
    {uid : String}
    (planted : uid ∈ state.jobs.trees)
    (accounted : state.Accounted uid) : next.Accounted uid := by
  have orderly := stored.orderly
  have own := orderly.own
  obtain ⟨-, retained, concluder, tasks, building⟩ :=
    storage_of_step steps outside
  have staged := stages_of_step steps uid fun id anonymous cmd done exitCode =>
    outside _ _ _
  cases accounted with
  | retained kept => exact .retained (retained ▸ kept)
  | @row job unreleased member site =>
      have row : job ∈ next.jobs.table.rows -> ¬ next.Released ->
          next.Accounted uid := fun left released => .row released left site
      cases step with
      | job inner done exitCode => exact absurd rfl (outside _ _ _)
      | refuseSize sandbox =>
          obtain ⟨rest, under, rfl⟩ := steps
          rcases JobTable.mem_remove_or member with left | gone
          · exact .row unreleased left site
          · have opens : Delivery.opening sandbox ∈ state.deliveries :=
              under ▸ Multiset.mem_cons_self _ _
            have same := own.named _ _ (.opening opens) job member
              (of_decide_eq_true gone)
            rw [← site, same] at planted
            exact absurd planted (stored.virgin sandbox (.inr opens))
      | abort => exact absurd (.inl steps.1) unreleased
      | join =>
          obtain ⟨-, -, -, -, -, rfl⟩ := steps
          exact row member (by simp [Released])
      | announceOpened | deliverFailure | announceFinished | read
      | announceClosed | onFinish =>
          simp only [Steps] at steps
          grind [Released]
  | @reclaiming sandbox reclaiming site unclosable =>
      have gone := own.formed.gone sandbox reclaiming
      refine .reclaiming (reclaiming.imp (tasks sandbox) concluder.trans) site ?_
      obtain ⟨id, cmd, builds⟩ | holds | none := unclosable
      · exact .inl ⟨id, cmd, building id sandbox cmd builds⟩
      · refine .inr (.inl ?_)
        cases step with
        | job inner done exitCode => exact absurd rfl (outside _ _ _)
        | refuseSize other =>
            obtain ⟨rest, under, rfl⟩ := steps
            cases found : state.row other.id with
            | none => simpa only [found] using holds
            | some job =>
                dsimp only
                rw [releases, Function.update_of_ne, holds]
                exact (gone.2 job (JobTable.mem_of_find found)).symm
        | join =>
            obtain ⟨-, -, -, -, -, rfl⟩ := steps
            exact holds
        | abort =>
            obtain ⟨-, rfl⟩ := steps
            exact holds
        | announceOpened | deliverFailure | announceFinished | read
        | announceClosed | onFinish =>
            simp only [Steps] at steps
            grind
      · rw [← site] at staged
        exact .inr (.inr (Nat.le_zero.mp (staged.trans none.le)))

theorem accounted_of_step
    (stored : state.Stored)
    (steps : state.Steps step next)
    (sessions : state.KeepsSessions step) :
    ∀ uid ∈ next.jobs.trees, next.Accounted uid := by
  intro uid planted
  cases step with
  | job step done exitCode =>
      obtain ⟨jobs, steps, ready, rfl⟩ := steps
      obtain old | ⟨task, member, origin, launches, consumed, rfl⟩ :=
        trees_of_section stored.orderly.own steps planted
      · exact accounted_of_section stored steps ready sessions planted
          (stored.accounted uid old)
      · exact accounted_of_launch stored steps ready member launches consumed planted
  | refuseSize | announceOpened | deliverFailure | announceFinished | read
  | announceClosed | onFinish | join | abort =>
      rw [(storage_of_step steps (by simp)).1] at planted
      exact accounted_of_outside stored steps (by simp) planted
        (stored.accounted uid planted)

/-- Every step that keeps names and sessions keeps snapshots accounted for. -/
theorem of_step
    (stored : state.Stored)
    (steps : state.Steps step next)
    (keeps : state.KeepsNames step)
    (sessions : state.KeepsSessions step) : next.Stored where
  orderly := stored.orderly.of_step steps keeps sessions
  virgin := stored.virgin_of_step steps
  planted := stored.planted_of_step steps
  accounted := stored.accounted_of_step steps sessions

/-- No snapshot has been taken at the start. -/
theorem empty : DeliveryState.empty.Stored where
  orderly := .empty
  virgin _ _ := Finset.notMem_empty _
  planted _ member := absurd member (Finset.notMem_empty _)
  accounted _ member := absurd member (Finset.notMem_empty _)

/-- In every run that keeps names and sessions the events are in order and the
snapshots accounted for. -/
theorem of_reachable
    (reachable : (deliveryMachine.restrict fun state step =>
      state.KeepsNames step ∧ state.KeepsSessions step).Reachable state) :
    state.Stored :=
  reachable.invariant Stored (fun _ initial => initial ▸ empty)
    fun _ _ _ _ stored steps => stored.of_step steps.1 steps.2.1 steps.2.2

/-- When a pump ends, the storage of its job is reclaimed, or kept because its
processes could not be proven gone. -/
theorem reclaimed_of_closed
    (stored : state.Stored)
    {shell : Sandbox}
    (steps : state.Steps (.announceClosed shell) next) :
    shell.uid ∉ state.jobs.trees ∨ shell.uid ∈ state.jobs.retained := by
  have orderly := stored.orderly
  have single := orderly.single shell.uid
  obtain ⟨rest, under, guard, -⟩ := steps
  have pumps : Delivery.pumping shell false false ∈ state.deliveries :=
    under ▸ Multiset.mem_cons_self _ _
  -- The pump excludes a construction, and the row it waits for is released.
  have closable : ∀ sandbox : Sandbox, sandbox.uid = shell.uid ->
      ¬ state.Unclosable sandbox := by
    intro sandbox same unclosable
    rw [← same] at single guard
    obtain ⟨id, cmd, builds⟩ | holds | none := unclosable
    · exact Orderly.not_stages_of_building single builds pumps
        (congrArg some same.symm)
    · exact guard _ holds
    · rw [same] at none
      exact (Orderly.stages_of_pump pumps).ne' none
  by_cases planted : shell.uid ∈ state.jobs.trees
  · refine .inr ?_
    obtain kept | ⟨unreleased, member, site⟩ | ⟨reclaiming, site, unclosable⟩ :=
      stored.accounted _ planted
    · exact kept
    · exact absurd (unclosable_of_row orderly unreleased member)
        (closable _ site)
    · exact absurd unclosable (closable _ site)
  · exact .inl planted

end Stored

/-! ## The protocol -/

/-- Runs that take over no name and keep the sessions. -/
abbrev sessionMachine : TransitionSystem DeliveryState DeliveryStep :=
  deliveryMachine.restrict fun state step =>
    state.KeepsNames step ∧ state.KeepsSessions step

/-- In every run that takes over no name, starts a command only in a job whose
opening was announced, takes no row of which a completion is still to be
announced and shuts down without snapshots on disk, the events of each job
follow the protocol. -/
theorem followsProtocol_of_keepsSessions
    {state next : DeliveryState}
    {step : DeliveryStep}
    (reachable : sessionMachine.Reachable state)
    (steps : sessionMachine.step state step next) :
    state.FollowsProtocol step next := by
  have stored := Stored.of_reachable reachable
  have after := stored.of_step steps.1 steps.2.1 steps.2.2
  refine ⟨after.orderly.protocol, fun shell same => ?_⟩
  obtain rfl := same
  exact stored.reclaimed_of_closed steps.1

/-- The job without a command, announced. -/
def openedState : DeliveryState :=
  { openingState with
    deliveries := {.pumping ⟨"job", "u1"⟩ true true}
    told := [.opened ⟨"job", "u1"⟩] }

/-- The job, stopped and reclaimed. -/
def reclaimedState : DeliveryState :=
  { openedState with
    jobs := { spawnedState with table := ⟨[], 1⟩, tasks := 0 }
    producers := Function.update openedState.producers "u1" none }

theorem reachable_openingState : sessionMachine.Reachable openingState := by
  have spawned : sessionMachine.Reachable buildingState :=
    .step (.job (.spawn "job" "u1" false none) none 0) (.start rfl)
      ⟨⟨spawnedState, spawnedState_steps, rfl, rfl⟩, not_works_empty "job",
        by simp [empty, JobState.empty], trivial⟩
  exact .step (.job (.build "job" ⟨"job", "u1"⟩ none) none 0) spawned
    ⟨⟨_, ⟨0, rfl, rfl, rfl⟩, trivial, rfl⟩, trivial,
      fun _ _ removes => removes.elim, trivial⟩

/-- A job that is stopped before any command is closed once it is reclaimed. -/
theorem followsProtocol_of_keepsSessions_stop :
    ∃ state next : DeliveryState,
      state.FollowsProtocol (.announceClosed ⟨"job", "u1"⟩) next := by
  have opened : sessionMachine.Reachable openedState :=
    .step (.announceOpened ⟨"job", "u1"⟩) reachable_openingState
      ⟨⟨0, rfl, rfl⟩, trivial, trivial⟩
  have stopped : sessionMachine.Reachable
      { openedState with
        jobs := { reclaimedState.jobs with
          tasks := {.reclaiming ⟨"job", "u1"⟩} } } :=
    .step (.job (.stop "job" false) none 0) opened
      ⟨⟨_, ⟨spawnedJob.build, rfl, rfl, rfl⟩, rfl, rfl⟩, trivial,
        fun _ _ _ _ _ _ _ => by simp [openedState], trivial⟩
  have reclaimed : sessionMachine.Reachable reclaimedState :=
    .step (.job (.reclaim ⟨"job", "u1"⟩) none 0) stopped
      ⟨⟨_, ⟨0, rfl, rfl⟩, trivial, rfl⟩, trivial,
        fun _ _ removes => removes.elim, trivial⟩
  have drained : sessionMachine.Reachable
      { reclaimedState with
        deliveries := {.pumping ⟨"job", "u1"⟩ false true} } :=
    .step (.read ⟨"job", "u1"⟩ true true .terminal .endOfFile) reclaimed
      ⟨⟨0, rfl, rfl, rfl⟩, trivial, trivial⟩
  have finished : sessionMachine.Reachable
      { reclaimedState with
        deliveries := {.pumping ⟨"job", "u1"⟩ false false} } :=
    .step (.read ⟨"job", "u1"⟩ false true .instrumentation .endOfFile) drained
      ⟨⟨0, rfl, rfl, rfl⟩, trivial, trivial⟩
  refine ⟨_, _, followsProtocol_of_keepsSessions finished
    ⟨⟨0, rfl, fun uid holds => ?_, rfl⟩, trivial, trivial⟩⟩
  have held := (Stored.of_reachable finished).orderly.own.held uid "u1" holds
  obtain rfl := held
  simp [reclaimedState] at holds

/-! ## A completion announced before the job -/

/-- A command started in a job between its publication and its announcement
completes before the job is announced. -/
theorem not_followsProtocol_of_unannounced :
    ∃ (state next : DeliveryState) (step : DeliveryStep),
      deliveryMachine.Reachable state ∧ deliveryMachine.step state step next ∧
        ¬ state.FollowsProtocol step next := by
  have started : deliveryMachine.Reachable _ :=
    .step (.job (.startIn "job" "true") none 0)
      reachable_openingState.of_restrict
      ⟨_, ⟨spawnedJob.build, rfl, rfl, rfl, rfl, rfl⟩, rfl, rfl⟩
  have waited : deliveryMachine.Reachable _ :=
    .step (.job (.waited "job" "true" ⟨"job", "u1"⟩) none 0) started
      ⟨_, ⟨.inr rfl, 0, rfl, rfl⟩, trivial, rfl⟩
  have prepared : deliveryMachine.Reachable _ :=
    .step (.job (.prepare "job" "true" ⟨"job", "u1"⟩ false) none 0) waited
      ⟨_, ⟨0, rfl, rfl⟩, by simp [Ready], rfl⟩
  have launched : deliveryMachine.Reachable _ :=
    .step (.job (.launch "job" "true" ⟨"job", "u1"⟩ ⟨"job", "u1"⟩ false 7
      .transaction) none 0) prepared
      ⟨_, ⟨0, rfl, rfl⟩, ⟨by decide, by decide⟩, rfl⟩
  have published : deliveryMachine.Reachable _ :=
    .step (.job (.publish "job" ⟨"job", "u1"⟩
      ⟨7, ⟨"job", "u1"⟩, "true", false⟩ true) none 0) launched
      ⟨_, ⟨0, rfl, rfl⟩, by simp [Ready], rfl⟩
  have reaped : deliveryMachine.Reachable _ :=
    .step (.job (.reap "job" 7) none 0) published
      ⟨_, ⟨0, rfl, .inl ⟨_, _, rfl, rfl, rfl, rfl⟩⟩, trivial, rfl⟩
  have submitted : deliveryMachine.Reachable _ :=
    .step (.job (.submit ⟨"job", ⟨7, ⟨"job", "u1"⟩, "true", false⟩⟩) none 0)
      reaped ⟨_, ⟨0, rfl, rfl⟩, trivial, rfl⟩
  have taken : deliveryMachine.Reachable _ :=
    .step (.job .take none 0) submitted
      ⟨_, ⟨_, [], rfl, rfl, rfl⟩, trivial, rfl⟩
  have concluded : deliveryMachine.Reachable _ :=
    .step (.job (.conclude false) none 0) taken
      ⟨_, ⟨_, rfl, rfl⟩, trivial, rfl⟩
  refine ⟨_, _, .announceFinished .conclusion ⟨"job", "u1"⟩ ⟨"job", "u1"⟩ 0
    none, concluded, ⟨{.opening ⟨"job", "u1"⟩}, by unfold Under; decide, rfl⟩,
    fun follows => ?_⟩
  have first : Protocol [.finished ⟨"job", "u1"⟩ 0] := follows.ordered "u1"
  obtain absurdity | ⟨shell, rest, absurdity, -⟩ |
    ⟨shell, before, ⟨opened, rest, rfl, -⟩, absurdity⟩ := first
  · contradiction
  · exact absurd (List.cons.inj absurdity).1 (by simp)
  · exact absurd (List.cons.inj absurdity).1 (by simp)

end DeliveryState

end Shellmux
end Marsh
