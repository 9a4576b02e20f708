import Marsh.Shellmux.OwnRows

/-!
# Automatic job names

A job nobody named is called by the next number.  No number is drawn twice, but
one that a reader gave as a name is drawn again once that job is gone.
-/

namespace Marsh
namespace Shellmux

open Library

/-- The name a section draws from the series, if it draws one. -/
def JobStep.allocates : JobStep -> Option String
  | .spawn id _ true _ | .refuseSpawn id true => some id
  | _ => none

/-- The names jobs have held after a section, the last one first. -/
def JobStep.names (held : List String) : JobStep -> List String
  | .spawn id _ _ _ => id :: held
  | _ => held

/-- Whether no row is removed under a number the series has yet to reach. -/
def JobState.FreesPassed (state : JobState) (step : JobStep) : Prop :=
  ∀ job ∈ state.table.rows, state.Removes step job ->
    ∀ number, job.id = toString number -> number < state.table.counter

/-- Whether no row is removed under a number the series has yet to reach. -/
def DeliveryState.FreesPassed (state : DeliveryState) : DeliveryStep -> Prop
  | .job step _ _ => state.jobs.FreesPassed step
  | .refuseSize sandbox => ∀ job ∈ state.jobs.table.rows,
      job.id = sandbox.id ->
        ∀ number, job.id = toString number -> number < state.jobs.table.counter
  | _ => True

/-- The name a step draws from the series, if it draws one. -/
def DeliveryStep.allocates : DeliveryStep -> Option String
  | .job step _ _ => step.allocates
  | _ => none

/-- The names jobs have held after a step. -/
def DeliveryStep.names (held : List String) : DeliveryStep -> List String
  | .job step _ _ => step.names held
  | _ => held

/-- The job machine with the names jobs have held; no step reads them. -/
def namingMachine :
    TransitionSystem (DeliveryState × List String) DeliveryStep where
  initial state := state = (.empty, [])
  step state step next :=
    state.1.Steps step next.1 ∧ next.2 = step.names state.2

/-- Whether each name a job has held is in the table, or the series has passed
it if it is a number. -/
def Passed (state : JobState) (held : List String) : Prop :=
  ∀ id ∈ held, (∃ job ∈ state.table.rows, job.id = id) ∨
    ∀ number, id = toString number -> number < state.table.counter

namespace JobState

variable {state next : JobState} {step : JobStep}

theorem counter_takeClosable (state : JobState) (id : String) :
    (state.takeClosable id).table.counter = state.table.counter := by
  obtain ⟨-, same⟩ | ⟨sandbox, -, same⟩ := state.takeClosable_cases id
  · rw [same]
  · rw [same]
    rfl

/-- The series never goes back. -/
theorem counter_of_step (steps : state.Steps step next) :
    state.table.counter ≤ next.table.counter := by
  have drawn : ∀ {id anonymous counter},
      state.table.Names id anonymous counter ->
        state.table.counter ≤ counter := by
    rintro id anonymous counter ⟨-, names⟩
    cases anonymous with
    | true =>
        obtain ⟨number, -, passed, -, rfl⟩ := names
        omega
    | false => exact names.ge
  cases step with
  | spawn id uid anonymous cmd =>
      obtain ⟨counter, names, -, rfl⟩ := steps
      exact drawn names
  | refuseSpawn id anonymous =>
      obtain ⟨counter, names, rfl⟩ := steps
      exact drawn names
  | reportFailure id origin =>
      obtain ⟨rest, -, rfl⟩ := steps
      rw [counter_takeClosable]
      exact le_rfl
  | checkClose =>
      obtain ⟨id, retained, -,
        ⟨-, rfl⟩ | ⟨sandbox, -, -, ⟨-, rfl⟩ | ⟨-, rfl⟩⟩⟩ :=
        JobState.checkClose_cases steps <;>
        exact le_rfl
  | stop id force =>
      obtain ⟨job, -, -, changed⟩ := steps
      split_ifs at changed
      · rw [changed, counter_takeClosable]
        exact le_rfl
      · rw [changed]
        exact le_rfl
  | _ =>
      simp only [Steps] at steps
      grind [JobTable.update, JobTable.change, JobTable.remove, JobTable.forget,
        closeSandbox]

/-- A row keeps its name, or is removed, or the section reserves it. -/
theorem exists_named_of_step
    (formed : state.WellFormed)
    (steps : state.Steps step next)
    {job : Job}
    (member : job ∈ state.table.rows) :
    (∃ row ∈ next.table.rows, row.id = job.id) ∨ state.Removes step job := by
  by_cases spawns : ∃ id uid anonymous cmd, step = .spawn id uid anonymous cmd
  · obtain ⟨id, uid, anonymous, cmd, rfl⟩ := spawns
    obtain ⟨counter, -, -, rfl⟩ := steps
    exact .inl ⟨job, List.mem_append.mpr (.inl member), rfl⟩
  · have unspawned : ∀ id uid anonymous cmd,
        step ≠ .spawn id uid anonymous cmd :=
      fun id uid anonymous cmd same => spawns ⟨id, uid, anonymous, cmd, same⟩
    refine ((onRow_of_step formed steps unspawned).2 job member).imp_left ?_
    exact fun stays => ⟨_, stays, (step.keeps_onRow job).1⟩

end JobState

/-- One section keeps the series ahead of the numbers that are free again. -/
theorem Passed.step
    {state next : JobState}
    {step : JobStep}
    {held : List String}
    (passed : Passed state held)
    (formed : state.WellFormed)
    (frees : state.FreesPassed step)
    (steps : state.Steps step next) : Passed next (step.names held) := by
  have later := JobState.counter_of_step steps
  have old : Passed next held := by
    intro id member
    obtain ⟨job, jobMember, rfl⟩ | behind := passed id member
    · refine (JobState.exists_named_of_step formed steps jobMember).imp_right ?_
      intro removed number same
      exact (frees job jobMember removed number same).trans_le later
    · exact .inr fun number same => (behind number same).trans_le later
  cases step with
  | spawn id uid anonymous cmd =>
      intro other member
      obtain rfl | earlier := List.mem_cons.mp member
      · obtain ⟨counter, -, -, rfl⟩ := steps
        exact .inl ⟨_, List.mem_append.mpr (.inr List.mem_cons_self), rfl⟩
      · exact old other earlier
  | _ => exact old

/-- One step keeps the series ahead of the numbers that are free again. -/
theorem Passed.deliveryStep
    {state next : DeliveryState}
    {step : DeliveryStep}
    {held : List String}
    (passed : Passed state.jobs held)
    (formed : state.jobs.WellFormed)
    (frees : state.FreesPassed step)
    (steps : state.Steps step next) : Passed next.jobs (step.names held) := by
  cases step with
  | job step done exitCode =>
      obtain ⟨jobs, sections, -, rfl⟩ := steps
      exact passed.step formed frees sections
  | refuseSize sandbox =>
      obtain ⟨rest, -, rfl⟩ := steps
      intro id member
      obtain ⟨job, jobMember, rfl⟩ | behind := passed id member
      · by_cases gone : job.id = sandbox.id
        · exact .inr (frees job jobMember gone)
        · refine .inl ⟨job, ?_, rfl⟩
          exact (JobTable.mem_remove_or jobMember).resolve_right (by simpa using gone)
      · exact .inr behind
  | announceOpened sandbox =>
      obtain ⟨rest, -, rfl⟩ := steps
      exact passed
  | deliverFailure id origin =>
      obtain ⟨rest, -, rfl⟩ := steps
      exact passed
  | announceFinished source origin shell exitCode done =>
      obtain ⟨rest, -, rfl⟩ := steps
      exact passed
  | read shell terminal instrumentation stream result =>
      obtain ⟨rest, -, -, rfl⟩ := steps
      exact passed
  | announceClosed shell =>
      obtain ⟨rest, -, -, rfl⟩ := steps
      exact passed
  | onFinish id done =>
      obtain ⟨-, -, job, -, -, -, rfl⟩ := steps
      exact passed
  | join =>
      obtain ⟨-, -, -, -, -, rfl⟩ := steps
      exact passed
  | abort =>
      obtain ⟨-, rfl⟩ := steps
      exact passed

/-- Along every run that removes no row under a number the series has yet to
reach, each name is in the table or passed. -/
theorem passed_of_reachable
    {state : DeliveryState × List String}
    (reachable : (namingMachine.restrict fun state step =>
      state.1.FreesPassed step).Reachable state) :
    state.1.jobs.WellFormed ∧ Passed state.1.jobs state.2 := by
  induction reachable with
  | start initial =>
      obtain rfl := initial
      exact ⟨.empty, fun id member => absurd member List.not_mem_nil⟩
  | step label _ steps hypothesis =>
      obtain ⟨⟨sections, names⟩, frees⟩ := steps
      refine ⟨DeliveryState.formed_of_step hypothesis.1 sections, ?_⟩
      rw [names]
      exact hypothesis.2.deliveryStep hypothesis.1 frees sections

/-- A name is drawn from the series for a job or for one that is refused its
sandbox: a number that names no row. -/
theorem names_of_allocates
    {state next : JobState}
    {step : JobStep}
    (steps : state.Steps step next)
    {id : String}
    (drawn : step.allocates = some id) :
    ∃ counter, state.table.Names id true counter := by
  cases step with
  | spawn name uid anonymous cmd =>
      obtain ⟨counter, names, -⟩ := steps
      cases anonymous with
      | false => contradiction
      | true =>
          obtain rfl := Option.some.inj drawn
          exact ⟨counter, names⟩
  | refuseSpawn name anonymous =>
      obtain ⟨counter, names, -⟩ := steps
      cases anonymous with
      | false => contradiction
      | true =>
          obtain rfl := Option.some.inj drawn
          exact ⟨counter, names⟩
  | _ => contradiction

/-- Along every run that removes no row under a number the series has yet to
reach, a name drawn from the series is no name a job has held or holds. -/
theorem drawn_of_freesPassed
    {state : DeliveryState × List String}
    (reachable : (namingMachine.restrict fun state step =>
      state.1.FreesPassed step).Reachable state)
    {step : DeliveryStep}
    {next : DeliveryState}
    (steps : state.1.Steps step next)
    {id : String}
    (drawn : step.allocates = some id) :
    id ∉ state.2 ∧ ∀ job ∈ state.1.jobs.table.rows, job.id ≠ id := by
  have named : ∃ counter, state.1.jobs.table.Names id true counter := by
    cases step with
    | job step done exitCode =>
        obtain ⟨jobs, sections, -, -⟩ := steps
        exact names_of_allocates sections drawn
    | _ => contradiction
  obtain ⟨counter, free, number, rfl, reached, -⟩ := named
  have absent : ∀ job ∈ state.1.jobs.table.rows, job.id ≠ toString number := by
    intro job member same
    rw [JobTable.find, List.find?_eq_none] at free
    exact free job member (decide_eq_true same)
  refine ⟨fun member => ?_, absent⟩
  obtain ⟨job, jobMember, same⟩ | passed :=
    (passed_of_reachable reachable).2 _ member
  · exact absent job jobMember same
  · have behind := passed number rfl
    omega

/-! ## A number given as a name -/

/-- A job to which a reader gave the name `1`. -/
def numberedState : DeliveryState :=
  { DeliveryState.empty with
    jobs :=
      { JobState.empty with
        table := ⟨[.reserve "1" "u1" false none], 1⟩
        tasks := {.building "1" ⟨"1", "u1"⟩ none}
        issued := ["u1"] } }

theorem numberedState_steps :
    DeliveryState.empty.Steps (.job (.spawn "1" "u1" false none) none 0)
      numberedState :=
  ⟨_, ⟨1, ⟨rfl, rfl⟩, List.not_mem_nil, rfl⟩, rfl, rfl⟩

/-- While that job is open, the next spawn draws `2`. -/
theorem drawn_of_freesPassed_numbered :
    "2" ∉ ["1"] ∧ ∀ job ∈ numberedState.jobs.table.rows, job.id ≠ "2" := by
  have names : numberedState.jobs.table.Names "2" true 3 := by
    refine ⟨rfl, 2, by decide, by decide, fun earlier first last => ?_, rfl⟩
    obtain rfl : earlier = 1 := by
      change 1 ≤ earlier at first
      omega
    decide
  exact @drawn_of_freesPassed (numberedState, ["1"])
    (.step _ (.start rfl) ⟨⟨numberedState_steps, rfl⟩,
      fun job member => absurd member List.not_mem_nil⟩)
    (.job (.refuseSpawn "2" true) none 0) _
    ⟨_, ⟨3, names, rfl⟩, rfl, rfl⟩ "2" rfl

/-- The job, stopped. -/
def freedState : DeliveryState :=
  { numberedState with
    jobs :=
      { numberedState.jobs with
        table := ⟨[], 1⟩
        tasks := .reclaiming ⟨"1", "u1"⟩ ::ₘ numberedState.jobs.tasks } }

/-- Once it is stopped, the next spawn draws `1` again. -/
theorem drawn_again :
    ∃ (state : DeliveryState × List String) (step : DeliveryStep)
      (next : DeliveryState),
      namingMachine.Reachable state ∧ state.1.Steps step next ∧
        step.allocates = some "1" ∧ "1" ∈ state.2 := by
  have spawned : namingMachine.Reachable (numberedState, ["1"]) :=
    .step _ (.start rfl) ⟨numberedState_steps, rfl⟩
  have stopped : namingMachine.Reachable (freedState, ["1"]) :=
    .step (.job (.stop "1" false) none 0) spawned
      ⟨⟨_, ⟨.reserve "1" "u1" false none, rfl, rfl, rfl⟩, rfl, rfl⟩, rfl⟩
  have names : freedState.jobs.table.Names "1" true 2 := by
    refine ⟨rfl, 1, by decide, by decide, fun earlier first last => ?_, rfl⟩
    change 1 ≤ earlier at first
    omega
  exact ⟨_, .job (.spawn "1" "u2" true none) none 0, _, stopped,
    ⟨_, ⟨2, names, by decide, rfl⟩, rfl, rfl⟩, rfl, List.mem_cons_self⟩

end Shellmux
end Marsh
