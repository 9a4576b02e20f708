import Marsh.Shellmux.Shutdown

/-!
# The frontend event protocol

The events of one job come from its construction, its pump, the conclusion task
and the reports of failed launches.  They form a session of the frontend with
the job while no operation overtakes the construction's announcement, and no row
leaves while a completion read from it is still to be announced.
-/

namespace Marsh
namespace Shellmux

open Library

/-! ## Sessions of one job -/

/-- Whether the event may stand between the opening of a job and its closing. -/
def FrontendEvent.between : FrontendEvent -> Bool
  | .terminal _ _ | .instrumentation _ _ | .finished _ _ | .ioError _ => true
  | .opened _ | .closed _ => false

/-- The job is open: its opening was announced first, and its closing not. -/
def Ongoing (events : List FrontendEvent) : Prop :=
  ∃ shell rest, events = .opened shell :: rest ∧
    ∀ event ∈ rest, event.between = true

/-- Nothing; or the opening, any number of events between, and at most one
closing, which is last. -/
def Protocol (events : List FrontendEvent) : Prop :=
  events = [] ∨ Ongoing events ∨
    ∃ shell before, Ongoing before ∧ events = before ++ [.closed shell]

theorem Ongoing.append
    {events more : List FrontendEvent}
    (ongoing : Ongoing events)
    (between : ∀ event ∈ more, event.between = true) :
    Ongoing (events ++ more) := by
  obtain ⟨shell, rest, rfl, rests⟩ := ongoing
  refine ⟨shell, rest ++ more, rfl, fun event member => ?_⟩
  exact (List.mem_append.mp member).elim (rests event) (between event)

theorem Ongoing.ne_nil
    {events : List FrontendEvent}
    (ongoing : Ongoing events) : events ≠ [] := by
  obtain ⟨shell, rest, rfl, -⟩ := ongoing
  exact List.cons_ne_nil _ _

/-- A session that has begun and was not closed is ongoing. -/
theorem Protocol.ongoing
    {events : List FrontendEvent}
    (protocol : Protocol events)
    (begun : events ≠ [])
    (unclosed : ∀ shell, FrontendEvent.closed shell ∉ events) :
    Ongoing events := by
  obtain rfl | ongoing | ⟨shell, before, -, rfl⟩ := protocol
  · exact absurd rfl begun
  · exact ongoing
  · exact absurd (List.mem_append_right _ (List.mem_singleton.mpr rfl))
      (unclosed shell)

/-- The uid a delivery builds or pumps for. -/
def Delivery.stageUid : Delivery -> Option String
  | .opening sandbox => some sandbox.uid
  | .pumping shell _ _ => some shell.uid
  | .reporting _ _ | .finishing _ _ _ _ _ => none

namespace DeliveryState

/-- The events delivered for a uid. -/
def eventsOf (state : DeliveryState) (uid : String) : List FrontendEvent :=
  state.told.filter fun event => event.shell.uid = uid

/-- Each job's events follow the protocol, and a job is closed only after its
storage is gone, or is kept because its processes could not be proven gone. -/
structure FollowsProtocol
    (state : DeliveryState)
    (step : DeliveryStep)
    (next : DeliveryState) : Prop where
  ordered : ∀ uid, Protocol (next.eventsOf uid)
  reclaimed : ∀ shell, step = .announceClosed shell ->
    shell.uid ∉ state.jobs.trees ∨ shell.uid ∈ state.jobs.retained

/-- A command is started in a job only after its opening was announced, no row
leaves the table while a completion read from it is still to be announced, and
a shutdown releases only jobs without a snapshot. -/
def KeepsSessions (state : DeliveryState) : DeliveryStep -> Prop
  | .job step _ _ =>
      (∀ job ∈ state.jobs.table.rows, state.jobs.Removes step job ->
        ∀ source origin exitCode done,
          Delivery.finishing source origin job.sandbox exitCode done ∉
            state.deliveries) ∧
      match step with
      | .startIn id _ =>
          ∀ job, state.row id = some job -> .opened job.sandbox ∈ state.told
      | .releaseAll =>
          ∀ job ∈ state.jobs.table.rows,
            job.sandbox.uid ∉ state.jobs.trees ∨
              job.sandbox.uid ∈ state.jobs.retained
      | _ => True
  | _ => True

/-! ## Who may announce -/

/-- The job has a command, or an operation that will announce a completion. -/
inductive Active (state : DeliveryState) : Sandbox -> Prop
  | waiting {id cmd : String} {origin : Sandbox}
      (member : Task.waiting id cmd origin ∈ state.jobs.tasks) :
      Active state origin
  | preparing {id cmd : String} {origin : Sandbox}
      (member : Task.preparing id cmd origin false ∈ state.jobs.tasks) :
      Active state origin
  | launch {task : Task} {origin : Sandbox}
      (member : task ∈ state.jobs.tasks)
      (launches : task.launchOrigin = some origin) : Active state origin
  | row {job : Job}
      (member : job ∈ state.jobs.table.rows)
      (runs : job.running ≠ none) : Active state job.sandbox
  | conclusion {conclusion : Conclusion}
      (unconcluded : state.jobs.Unconcluded conclusion) :
      Active state conclusion.started.sandbox
  | reporting {id : String} {origin : Sandbox}
      (member : Delivery.reporting id origin ∈ state.deliveries) :
      Active state origin

/-- The construction has not announced the job yet. -/
def Unopened (state : DeliveryState) (sandbox : Sandbox) : Prop :=
  (∃ id cmd, Task.building id sandbox cmd ∈ state.jobs.tasks) ∨
    Delivery.opening sandbox ∈ state.deliveries

/-- How many constructions and pumps a uid has. -/
def stages (state : DeliveryState) (uid : String) : Nat :=
  taskCount Task.buildingUid state.jobs.tasks uid +
    state.deliveries.countP fun delivery => delivery.stageUid = some uid

/-- The terminals are released. -/
def Released (state : DeliveryState) : Prop :=
  state.phase = .released ∨ state.phase = .ended

/-- The owned tasks have returned. -/
structure Joined (state : DeliveryState) : Prop where
  watches : ∀ task ∈ state.jobs.tasks, task.watches = true
  pumps : ∀ delivery ∈ state.deliveries, delivery.pumps = true
  taking : state.jobs.concluder = .taking
  drained : state.jobs.queue.pending = []
  closed : state.jobs.queue.closed = true

/-! ## Constructions and pumps -/

section Step

variable {state next : DeliveryState} {step : DeliveryStep}

/-- Building goes on until its own section. -/
theorem building_le_of_section
    {step : JobStep}
    {jobs : JobState}
    (steps : state.jobs.Steps step jobs)
    (uid : String)
    (unspawned : ∀ id anonymous cmd, step ≠ .spawn id uid anonymous cmd) :
    taskCount Task.buildingUid jobs.tasks uid ≤
      taskCount Task.buildingUid state.jobs.tasks uid := by
  obtain ⟨started, fewer, starts⟩ := JobState.tasks_le_of_step steps
  have none : taskCount Task.buildingUid started uid = 0 := by
    refine Multiset.countP_eq_zero.mpr fun task member builds => ?_
    have began := starts task member
    cases step <;> simp only [JobState.Starts] at began <;>
      grind [Task.buildingUid]
  calc
    taskCount Task.buildingUid jobs.tasks uid ≤
        taskCount Task.buildingUid (started + state.jobs.tasks) uid :=
      Multiset.countP_le_of_le _ fewer
    _ = taskCount Task.buildingUid state.jobs.tasks uid := by
      rw [taskCount_add, none, Nat.zero_add]

/-- A uid has no more constructions and pumps than before, but for the spawn it
is issued to. -/
theorem stages_of_section
    {step : JobStep}
    {done : Option Nat}
    {exitCode : Int}
    {jobs : JobState}
    (steps : state.jobs.Steps step jobs)
    (uid : String)
    (unspawned : ∀ id anonymous cmd, step ≠ .spawn id uid anonymous cmd) :
    (state.after step done exitCode jobs).stages uid ≤ state.stages uid := by
  have fewer := building_le_of_section steps uid unspawned
  have split : (state.after step done exitCode jobs).stages uid =
      taskCount Task.buildingUid jobs.tasks uid +
        ((state.begun exitCode step).countP
            (fun delivery => delivery.stageUid = some uid) +
          state.deliveries.countP
            fun delivery => delivery.stageUid = some uid) := by
    rw [← Multiset.countP_add]
    rfl
  rw [split, stages]
  by_cases builds : ∃ id sandbox cmd, step = .build id sandbox cmd
  · obtain ⟨id, sandbox, cmd, rfl⟩ := builds
    obtain ⟨rest, pending, -, rfl⟩ := steps
    have launched : taskCount Task.buildingUid (launchTask id sandbox cmd) uid =
        0 := by
      cases cmd <;> rfl
    have one : (state.begun exitCode (.build id sandbox cmd)).countP
        (fun delivery => delivery.stageUid = some uid) =
        if sandbox.uid = uid then 1 else 0 := by
      rw [begun, ← Multiset.cons_zero, Multiset.countP_cons, Multiset.countP_zero,
        Nat.zero_add]
      simp only [Delivery.stageUid, Option.some.injEq]
    rw [one, taskCount_add, launched, pending, taskCount_cons]
    simp only [Task.buildingUid, Option.some.injEq]
    omega
  · have none : (state.begun exitCode step).countP
        (fun delivery => delivery.stageUid = some uid) = 0 := by
      refine Multiset.countP_eq_zero.mpr fun delivery member staged => ?_
      obtain ⟨id, sandbox, cmd, same, -⟩ | ⟨_, _, _, -, rfl⟩ |
        ⟨_, _, _, _, _, _, -, rfl⟩ | ⟨_, _, _, _, -, rfl⟩ |
        ⟨_, _, _, -, -, -, rfl⟩ := begun_cases member
      · exact builds ⟨id, sandbox, cmd, same⟩
      all_goals contradiction
    rw [none]
    omega

/-- A step outside the locks adds no construction and no pump. -/
theorem stages_of_step
    (steps : state.Steps step next)
    (uid : String)
    (unspawned : ∀ id anonymous cmd done exitCode,
      step ≠ .job (.spawn id uid anonymous cmd) done exitCode) :
    next.stages uid ≤ state.stages uid := by
  have moved : ∀ {deliveries rest : Multiset Delivery} {delivery : Delivery},
      state.Under delivery rest ->
      (deliveries.countP (fun other => other.stageUid = some uid) ≤
        rest.countP (fun other => other.stageUid = some uid) +
          if delivery.stageUid = some uid then 1 else 0) ->
      taskCount Task.buildingUid state.jobs.tasks uid +
          deliveries.countP (fun other => other.stageUid = some uid) ≤
        state.stages uid := by
    intro deliveries rest delivery under fewer
    rw [stages, under, Multiset.countP_cons]
    omega
  cases step with
  | job step done exitCode =>
      obtain ⟨jobs, steps, -, rfl⟩ := steps
      exact stages_of_section steps uid fun id anonymous cmd same =>
        unspawned id anonymous cmd done exitCode (by rw [same])
  | refuseSize sandbox =>
      obtain ⟨rest, under, rfl⟩ := steps
      refine le_trans ?_ (moved under (Nat.le_add_right _ _))
      exact Nat.add_le_add_right
        (Multiset.countP_le_of_le _ (Multiset.filter_le _ _)) _
  | announceOpened sandbox =>
      obtain ⟨rest, under, rfl⟩ := steps
      exact moved under (by rw [Multiset.countP_cons]; rfl)
  | deliverFailure id origin =>
      obtain ⟨rest, under, rfl⟩ := steps
      refine moved under ?_
      rw [Multiset.countP_add]
      have none : (state.deliver .launch id origin (-1)).countP
          (fun other => other.stageUid = some uid) = 0 := by
        refine Multiset.countP_eq_zero.mpr fun delivery member staged => ?_
        cases found : state.row id with
        | none =>
            simp only [deliver, found] at member
            exact absurd member (Multiset.notMem_zero _)
        | some job =>
            simp only [deliver, found] at member
            obtain rfl := Multiset.mem_singleton.mp member
            contradiction
      omega
  | announceFinished source origin shell exitCode done =>
      obtain ⟨rest, under, rfl⟩ := steps
      exact moved under (Nat.le_add_right _ _)
  | read shell terminal instrumentation stream result =>
      obtain ⟨rest, under, -, rfl⟩ := steps
      refine moved under ?_
      cases stream <;> exact (Multiset.countP_cons _ _ _).le
  | announceClosed shell =>
      obtain ⟨rest, under, -, rfl⟩ := steps
      exact moved under (Nat.le_add_right _ _)
  | onFinish id done =>
      obtain ⟨-, -, job, -, -, -, rfl⟩ := steps
      exact le_rfl
  | join =>
      obtain ⟨-, -, -, -, -, rfl⟩ := steps
      exact le_rfl
  | abort =>
      obtain ⟨-, rfl⟩ := steps
      rw [stages, stages, Multiset.countP_zero, Nat.add_zero]
      exact (Multiset.countP_le_of_le _ (Multiset.filter_le _ _)).trans
        (Nat.le_add_right _ _)

/-- A construction that has not announced its job was under way, or the job is
a new one. -/
theorem unopened_of_step
    (steps : state.Steps step next)
    {sandbox : Sandbox}
    (unopened : next.Unopened sandbox) :
    state.Unopened sandbox ∨
      ∃ id anonymous cmd done exitCode,
        step = .job (.spawn id sandbox.uid anonymous cmd) done exitCode ∧
          sandbox.uid ∉ state.jobs.issued := by
  cases step with
  | job step done exitCode =>
      obtain ⟨jobs, steps, -, rfl⟩ := steps
      rcases unopened with ⟨id, cmd, builds⟩ | opening
      · rcases JobState.tasks_of_step steps builds with old | new
        · exact .inl (.inl ⟨id, cmd, old⟩)
        · cases step with
          | spawn name uid anonymous given =>
              obtain ⟨-, rfl, -⟩ := Task.building.inj new
              obtain ⟨counter, -, fresh, -⟩ := steps
              exact .inr ⟨name, anonymous, given, done, exitCode, rfl, fresh⟩
          | build | startIn | waited | prepare | launch | failLaunch | publish
          | reap | reportFailure | stop => simp [JobState.Starts] at new
          | refuseSpawn | failBuild | refuseSize | submit | take | conclude
          | finish | checkClose | reclaimConcluded | keep | reclaim
          | closeSandbox | cancel | killAll | releaseAll => exact new.elim
      · rcases Multiset.mem_add.mp opening with new | old
        · obtain ⟨id, built, cmd, rfl, same⟩ | ⟨_, _, _, -, same⟩ |
            ⟨_, _, _, _, _, _, -, same⟩ | ⟨_, _, _, _, -, same⟩ |
            ⟨_, _, _, -, -, -, same⟩ := begun_cases new
          · obtain rfl := Delivery.opening.inj same
            obtain ⟨rest, pending, -, -⟩ := steps
            exact .inl (.inl ⟨id, cmd, pending.self⟩)
          all_goals contradiction
        · exact .inl (.inr old)
  | refuseSize other =>
      obtain ⟨rest, under, rfl⟩ := steps
      refine .inl (unopened.imp ?_ fun opening => ?_)
      · rintro ⟨id, cmd, builds⟩
        exact ⟨id, cmd, (Multiset.mem_filter.mp builds).1⟩
      · rw [under]
        exact Multiset.mem_cons_of_mem opening
  | announceOpened other =>
      obtain ⟨rest, under, rfl⟩ := steps
      refine .inl (unopened.imp_right fun opening => ?_)
      rw [under]
      refine Multiset.mem_cons_of_mem ?_
      exact (Multiset.mem_cons.mp opening).resolve_left (by simp)
  | deliverFailure id origin =>
      obtain ⟨rest, under, rfl⟩ := steps
      refine .inl (unopened.imp_right fun opening => ?_)
      rw [under]
      refine Multiset.mem_cons_of_mem ?_
      refine (Multiset.mem_add.mp opening).resolve_left fun delivered => ?_
      cases found : state.row id with
      | none =>
          simp only [deliver, found] at delivered
          exact Multiset.notMem_zero _ delivered
      | some job =>
          simp only [deliver, found] at delivered
          exact absurd (Multiset.mem_singleton.mp delivered) (by simp)
  | announceFinished source origin shell exitCode done =>
      obtain ⟨rest, under, rfl⟩ := steps
      refine .inl (unopened.imp_right fun opening => ?_)
      rw [under]
      exact Multiset.mem_cons_of_mem opening
  | read shell terminal instrumentation stream result =>
      obtain ⟨rest, under, -, rfl⟩ := steps
      refine .inl (unopened.imp_right fun opening => ?_)
      rw [under]
      refine Multiset.mem_cons_of_mem ?_
      refine (Multiset.mem_cons.mp opening).resolve_left ?_
      cases stream <;> simp
  | announceClosed shell =>
      obtain ⟨rest, under, -, rfl⟩ := steps
      refine .inl (unopened.imp_right fun opening => ?_)
      rw [under]
      exact Multiset.mem_cons_of_mem opening
  | onFinish id done =>
      obtain ⟨-, -, job, -, -, -, rfl⟩ := steps
      exact .inl unopened
  | join =>
      obtain ⟨-, -, -, -, -, rfl⟩ := steps
      exact .inl unopened
  | abort =>
      obtain ⟨-, rfl⟩ := steps
      refine .inl (unopened.imp ?_ fun opening => ?_)
      · rintro ⟨id, cmd, builds⟩
        exact ⟨id, cmd, (Multiset.mem_filter.mp builds).1⟩
      · exact absurd opening (Multiset.notMem_zero _)

/-- Events stay delivered. -/
theorem told_of_step
    (steps : state.Steps step next) : state.told <+: next.told := by
  cases step with
  | announceOpened | announceFinished | read | announceClosed =>
      simp only [Steps] at steps
      grind
  | job | refuseSize | deliverFailure | onFinish | join | abort =>
      simp only [Steps, after] at steps
      grind

end Step

/-- What orders the events of each job. -/
structure Orderly (state : DeliveryState) : Prop where
  own : state.OwnRows
  protocol : ∀ uid, Protocol (state.eventsOf uid)
  known : ∀ event ∈ state.told, event.shell.uid ∈ state.jobs.issued
  staged : ∀ uid, uid ∉ state.jobs.issued -> state.stages uid = 0
  single : ∀ uid, state.stages uid ≤ 1
  fresh : ∀ sandbox, state.Unopened sandbox -> state.eventsOf sandbox.uid = []
  pumps : ∀ shell terminal instrumentation,
    Delivery.pumping shell terminal instrumentation ∈ state.deliveries ->
      Ongoing (state.eventsOf shell.uid)
  completes : ∀ source origin shell exitCode done,
    Delivery.finishing source origin shell exitCode done ∈ state.deliveries ->
      .opened shell ∈ state.told ∧
        ∃ job ∈ state.jobs.table.rows, job.sandbox = shell
  active : ∀ origin, state.Active origin -> .opened origin ∈ state.told
  owned : ∀ id cmd origin,
    Task.preparing id cmd origin true ∈ state.jobs.tasks ->
      Delivery.opening origin ∈ state.deliveries ∨ .opened origin ∈ state.told
  closed : ∀ shell, .closed shell ∈ state.told ->
    state.stages shell.uid = 0 ∧
      ((∀ job ∈ state.jobs.table.rows, job.sandbox.uid ≠ shell.uid) ∨
        state.Released)
  holding : ∀ job ∈ state.jobs.table.rows, state.Released ∨
    (∃ id cmd, Task.building id job.sandbox cmd ∈ state.jobs.tasks) ∨
      state.producers job.sandbox.uid = some job.sandbox.uid
  cancelled : state.phase ≠ .session -> state.jobs.queue.closed = true
  joined : state.phase = .joined ∨ state.Released -> state.Joined

end DeliveryState

end Shellmux
end Marsh
