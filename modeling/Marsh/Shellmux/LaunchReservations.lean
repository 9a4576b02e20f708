import Marsh.Shellmux.JobSteps

/-!
# Launch reservations

A row is reserved for a launch by its `starting` flag.  The launch that took
the reservation releases it, whichever way it ends, except for the two ways
that return without a look at the row.
-/

namespace Marsh
namespace Shellmux

open Library

/-! ## Reservations and their launches -/

/-- A launch reserved for the row is in progress. -/
def JobState.Reserved (state : JobState) (job : Job) : Prop :=
  ∃ task ∈ state.tasks, task.reservation = some (job.id, job.sandbox)

/-- Every reserved row has its launch in progress. -/
def JobState.ReservationsHeld (state : JobState) : Prop :=
  ∀ job ∈ state.table.rows, job.starting = true -> state.Reserved job

/-- The launch does not return past the row it is reserved for: it finds the
row's resources built, and it does not lose its blocking task. -/
def JobState.ReleasesLaunch (state : JobState) : JobStep -> Prop
  | .prepare id _ origin _ =>
      ∀ job, state.table.find id = some job -> job.sandbox = origin ->
        job.built = true
  | .failLaunch id _ origin _ _ _ cleared =>
      cleared = true ∨
        ∀ job, state.table.find id = some job -> job.sandbox = origin ->
          job.starting = false
  | _ => True

/-- The name whose row the section releases or removes. -/
def JobStep.clears : JobStep -> Option String
  | .failBuild id _ _ | .refuseSize id _ _ => some id
  | .failLaunch id _ _ _ _ _ true => some id
  | .publish id _ _ _ => some id
  | _ => none

section Step

variable {state next : JobState} {step : JobStep}

/-- A launch goes on, or its section releases the row, or the section is one
that returns past the row. -/
theorem reserved_of_step
    (steps : state.Steps step next)
    {task : Task}
    {id : String}
    {origin : Sandbox}
    (member : task ∈ state.tasks)
    (reserves : task.reservation = some (id, origin)) :
    (∃ after ∈ next.tasks, after.reservation = some (id, origin)) ∨
      step.clears = some id ∨
      (∃ cmd owned, step = .prepare id cmd origin owned ∧
        (state.table.find id).filter Job.built = none) ∨
      ∃ cmd sandbox owned tree,
        step = .failLaunch id cmd origin sandbox owned tree false := by
  have kept : ∀ tasks : Multiset Task, state.tasks ≤ tasks ->
      ∃ after ∈ tasks, after.reservation = some (id, origin) :=
    fun tasks more => ⟨task, Multiset.mem_of_le more member, reserves⟩
  have split : ∀ {done : Task} {rest : Multiset Task},
      state.Pending done rest -> task = done ∨ task ∈ rest :=
    fun pending => Multiset.mem_cons.mp (pending ▸ member)
  -- An operation that is replaced by the next part of the same launch.
  have continued : ∀ {done after : Task} {rest : Multiset Task},
      state.Pending done rest -> after.reservation = done.reservation ->
      ∃ other ∈ after ::ₘ rest, other.reservation = some (id, origin) := by
    intro done after rest pending same
    rcases split pending with rfl | old
    · exact ⟨after, Multiset.mem_cons_self after rest, same.trans reserves⟩
    · exact ⟨task, Multiset.mem_cons_of_mem old, reserves⟩
  -- An operation that reserves nothing.
  have ended : ∀ {done : Task} {rest : Multiset Task},
      state.Pending done rest -> done.reservation = none ->
      ∃ other ∈ rest, other.reservation = some (id, origin) := by
    intro done rest pending unreserved
    rcases split pending with rfl | old
    · simp [unreserved] at reserves
    · exact ⟨task, old, reserves⟩
  have closed : ∀ (other : JobState) (name : String),
      (∃ after ∈ other.tasks, after.reservation = some (id, origin)) ->
      ∃ after ∈ (other.takeClosable name).tasks,
        after.reservation = some (id, origin) := by
    rintro other name ⟨after, afterMember, holds⟩
    obtain ⟨-, same⟩ | ⟨sandbox, -, same⟩ := other.takeClosable_cases name
    · rw [same]
      exact ⟨after, afterMember, holds⟩
    · rw [same]
      exact ⟨after, Multiset.mem_cons_of_mem afterMember, holds⟩
  cases step with
  | spawn name uid anonymous cmd =>
      obtain ⟨counter, -, -, rfl⟩ := steps
      exact .inl (kept _ (Multiset.le_cons_self _ _))
  | refuseSpawn name anonymous =>
      obtain ⟨counter, -, rfl⟩ := steps
      exact .inl (kept _ le_rfl)
  | build name sandbox cmd =>
      obtain ⟨rest, pending, -, rfl⟩ := steps
      cases cmd with
      | none =>
          obtain ⟨other, old, holds⟩ := ended pending rfl
          exact .inl ⟨other, by simpa [launchTask] using old, holds⟩
      | some cmd =>
          obtain ⟨other, old, holds⟩ :=
            @continued _ (.preparing name cmd sandbox true) _ pending rfl
          exact .inl ⟨other, by simpa [launchTask] using old, holds⟩
  | failBuild name sandbox cmd =>
      obtain ⟨rest, pending, rfl⟩ := steps
      rcases split pending with rfl | old
      · cases cmd with
        | none => simp [Task.reservation] at reserves
        | some cmd =>
            obtain ⟨rfl, rfl⟩ := by simpa [Task.reservation] using reserves
            exact .inr (.inl rfl)
      · exact .inl ⟨task, old, reserves⟩
  | refuseSize name sandbox cmd =>
      obtain ⟨rest, given, -, -, rfl⟩ := steps
      rw [given] at member
      rcases Multiset.mem_add.mp member with own | old
      · cases cmd with
        | none => cases own
        | some cmd =>
            rw [Multiset.mem_singleton.mp own] at reserves
            obtain ⟨rfl, rfl⟩ := by simpa [Task.reservation] using reserves
            exact .inr (.inl rfl)
      · exact .inl ⟨task, old, reserves⟩
  | startIn name cmd =>
      obtain ⟨job, -, -, -, -, rfl⟩ := steps
      exact .inl (kept _ (Multiset.le_cons_self _ _))
  | waited name cmd began =>
      obtain ⟨-, rest, pending, rfl⟩ := steps
      exact .inl (continued pending rfl)
  | prepare name cmd began owned =>
      obtain ⟨rest, pending, rfl⟩ := steps
      cases found : (state.table.find name).filter Job.built with
      | some job => exact .inl (continued pending rfl)
      | none =>
          rcases split pending with rfl | old
          · obtain ⟨rfl, rfl⟩ := by simpa [Task.reservation] using reserves
            exact .inr (.inr (.inl ⟨cmd, owned, rfl, found⟩))
          · exact .inl ⟨task, Multiset.mem_add.mpr (.inr old), reserves⟩
  | launch name cmd began sandbox owned pid plan =>
      obtain ⟨rest, pending, rfl⟩ := steps
      exact .inl (continued pending rfl)
  | failLaunch name cmd began sandbox owned tree cleared =>
      obtain ⟨rest, pending, rfl⟩ := steps
      rcases split pending with rfl | old
      · obtain ⟨rfl, rfl⟩ := by simpa [Task.reservation] using reserves
        cases cleared
        · exact .inr (.inr (.inr ⟨cmd, sandbox, owned, tree, rfl⟩))
        · exact .inr (.inl rfl)
      · exact .inl ⟨task, Multiset.mem_add.mpr (.inr old), reserves⟩
  | publish name began started killed =>
      obtain ⟨rest, pending, rfl⟩ := steps
      rcases split pending with rfl | old
      · obtain ⟨rfl, rfl⟩ := by simpa [Task.reservation] using reserves
        exact .inr (.inl rfl)
      · exact .inl ⟨task, Multiset.mem_cons_of_mem old, reserves⟩
  | reportFailure name began =>
      obtain ⟨rest, pending, rfl⟩ := steps
      exact .inl (closed _ _ (ended pending rfl))
  | reap name pid =>
      obtain ⟨rest, pending, ⟨job, started, -, -, -, rfl⟩ | ⟨-, rfl⟩⟩ := steps
      · exact .inl (continued pending rfl)
      · exact .inl (ended pending rfl)
  | submit conclusion =>
      obtain ⟨rest, pending, rfl⟩ := steps
      exact .inl (ended pending rfl)
  | take =>
      obtain ⟨conclusion, rest, -, -, rfl⟩ := steps
      exact .inl (kept _ le_rfl)
  | conclude retained =>
      obtain ⟨conclusion, -, rfl⟩ := steps
      exact .inl (kept _ le_rfl)
  | finish =>
      obtain ⟨name, retained, -, rfl⟩ := steps
      exact .inl (kept _ le_rfl)
  | checkClose =>
      obtain ⟨name, retained, -,
        ⟨-, rfl⟩ | ⟨sandbox, -, -, ⟨-, rfl⟩ | ⟨-, rfl⟩⟩⟩ :=
        JobState.checkClose_cases steps <;>
        exact .inl (kept _ le_rfl)
  | reclaimConcluded =>
      obtain ⟨sandbox, -, rfl⟩ := steps
      exact .inl (kept _ le_rfl)
  | keep name =>
      obtain rfl := steps
      exact .inl (kept _ le_rfl)
  | stop name force =>
      obtain ⟨job, -, -, changed⟩ := steps
      split_ifs at changed
      · rw [changed]
        exact .inl (closed _ _ (kept _ le_rfl))
      · rw [changed]
        exact .inl (kept _ le_rfl)
  | reclaim sandbox =>
      obtain ⟨rest, pending, rfl⟩ := steps
      exact .inl (ended pending rfl)
  | closeSandbox sandbox =>
      obtain rfl := steps
      exact .inl (kept _ le_rfl)
  | cancel =>
      obtain rfl := steps
      exact .inl (kept _ le_rfl)
  | killAll killable =>
      obtain rfl := steps
      exact .inl (kept _ le_rfl)
  | releaseAll =>
      obtain rfl := steps
      exact .inl (kept _ le_rfl)

/-- A reserved row was reserved before and is not released, or the section
reserves it. -/
theorem starting_of_step
    (formed : state.WellFormed)
    (steps : state.Steps step next)
    {job : Job}
    (member : job ∈ next.table.rows)
    (starting : job.starting = true) :
    (step.clears ≠ some job.id ∧ ∃ row ∈ state.table.rows,
        row.id = job.id ∧ row.sandbox = job.sandbox ∧ row.starting = true) ∨
      next.Reserved job := by
  have kept : step.clears ≠ some job.id -> job ∈ state.table.rows ->
      (step.clears ≠ some job.id ∧ ∃ row ∈ state.table.rows,
        row.id = job.id ∧ row.sandbox = job.sandbox ∧ row.starting = true) ∨
      next.Reserved job :=
    fun stays old => .inl ⟨stays, job, old, rfl, rfl, starting⟩
  -- A change of one row that sets no reservation.
  have changed : step.clears ≠ some job.id ->
      ∀ {table : JobTable} {name : String} {change : Job -> Job},
        table.rows = state.table.rows -> Job.Keeps change ->
        (∀ row, (change row).starting = true -> row.starting = true) ->
        job ∈ (table.update name change).rows ->
        (step.clears ≠ some job.id ∧ ∃ row ∈ state.table.rows,
          row.id = job.id ∧ row.sandbox = job.sandbox ∧
            row.starting = true) ∨ next.Reserved job := by
    intro stays table name change rows keeps unset changedMember
    obtain ⟨row, rowMember, rfl⟩ := List.mem_map.mp changedMember
    rw [rows] at rowMember
    refine .inl ⟨stays, row, rowMember, ?_⟩
    split_ifs at starting ⊢ with named
    · exact ⟨(keeps row).1.symm, (keeps row).2.symm, unset row starting⟩
    · exact ⟨rfl, rfl, starting⟩
  have removed : ∀ {gone : Job -> Bool},
      job ∈ (state.table.remove gone).rows -> job ∈ state.table.rows :=
    fun old => (state.table.rows_remove_sublist _).subset old
  -- The row of a name that a spawn gives up is gone.
  have gaveUp : ∀ {name : String}, step.clears = some name ->
      job ∈ (state.table.remove fun row => row.id = name).rows ->
      (step.clears ≠ some job.id ∧ ∃ row ∈ state.table.rows,
        row.id = job.id ∧ row.sandbox = job.sandbox ∧ row.starting = true) ∨
      next.Reserved job := by
    intro name clears left
    refine kept (fun cleared => ?_) (removed left)
    obtain rfl := Option.some.inj (clears.symm.trans cleared)
    have found := JobTable.find_of_mem formed.named (removed left)
    have gone := JobTable.find_remove_self formed.named found
    rw [JobTable.find, List.find?_eq_none] at gone
    exact gone job left (by simp)
  cases step with
  | spawn name uid anonymous cmd =>
      obtain ⟨counter, -, -, rfl⟩ := steps
      rcases List.mem_append.mp member with old | new
      · exact kept (by simp [JobStep.clears]) old
      · obtain rfl := List.mem_singleton.mp new
        cases cmd with
        | none => simp [Job.reserve] at starting
        | some cmd =>
            exact .inr ⟨_, Multiset.mem_cons_self _ _, rfl⟩
  | refuseSpawn name anonymous =>
      obtain ⟨counter, -, rfl⟩ := steps
      exact kept (by simp [JobStep.clears]) member
  | build name sandbox cmd =>
      obtain ⟨rest, -, -, rfl⟩ := steps
      exact changed (by simp [JobStep.clears]) rfl Job.keeps_build
        (fun _ holds => holds) member
  | failBuild name sandbox cmd =>
      obtain ⟨rest, -, rfl⟩ := steps
      exact gaveUp rfl member
  | refuseSize name sandbox cmd =>
      obtain ⟨rest, -, -, -, rfl⟩ := steps
      exact gaveUp rfl member
  | startIn name cmd =>
      obtain ⟨row, found, -, -, -, rfl⟩ := steps
      obtain ⟨old, oldMember, rfl⟩ := List.mem_map.mp member
      split_ifs at starting ⊢ with named
      · refine .inr ⟨_, Multiset.mem_cons_self _ _, ?_⟩
        obtain rfl := formed.eq_of_id oldMember (JobTable.mem_of_find found)
          (named.trans (JobTable.find_some_id found).symm)
        rw [← named]
        rfl
      · exact .inl ⟨by simp [JobStep.clears], old, oldMember, rfl, rfl,
          starting⟩
  | waited name cmd began =>
      obtain ⟨-, rest, -, rfl⟩ := steps
      exact kept (by simp [JobStep.clears]) member
  | prepare name cmd began owned =>
      obtain ⟨rest, -, rfl⟩ := steps
      exact kept (by simp [JobStep.clears]) member
  | launch name cmd began sandbox owned pid plan =>
      obtain ⟨rest, -, rfl⟩ := steps
      exact kept (by simp [JobStep.clears]) member
  | failLaunch name cmd began sandbox owned tree cleared =>
      obtain ⟨rest, -, rfl⟩ := steps
      cases cleared
      · exact kept (by simp [JobStep.clears]) member
      · obtain ⟨row, rowMember, rfl⟩ := List.mem_map.mp member
        by_cases named : row.id = name
        · rw [if_pos named] at starting
          simp [Job.clear] at starting
        · rw [if_neg named] at starting ⊢
          exact .inl ⟨by simpa [JobStep.clears] using Ne.symm named, row,
            rowMember, rfl, rfl, starting⟩
  | publish name began started killed =>
      obtain ⟨rest, -, rfl⟩ := steps
      obtain ⟨row, rowMember, rfl⟩ := List.mem_map.mp member
      split_ifs at starting ⊢ with named
      · unfold Job.publish at starting
        split_ifs at starting
      · exact .inl ⟨by simpa [JobStep.clears] using Ne.symm named, row,
          rowMember, rfl, rfl, starting⟩
  | reportFailure name began =>
      obtain ⟨rest, -, rfl⟩ := steps
      exact changed (by simp [JobStep.clears]) rfl Job.keeps_drain
        (fun _ holds => holds)
        ((JobState.rows_takeClosable_sublist _ _).subset member)
  | reap name pid =>
      obtain ⟨rest, -, ⟨row, started, -, -, -, rfl⟩ | ⟨-, rfl⟩⟩ := steps
      · exact changed (by simp [JobStep.clears]) rfl Job.keeps_reap
          (fun _ holds => holds) member
      · exact kept (by simp [JobStep.clears]) member
  | submit conclusion =>
      obtain ⟨rest, -, rfl⟩ := steps
      exact kept (by simp [JobStep.clears]) member
  | take =>
      obtain ⟨conclusion, rest, -, -, rfl⟩ := steps
      exact kept (by simp [JobStep.clears]) member
  | conclude retained =>
      obtain ⟨conclusion, -, rfl⟩ := steps
      exact kept (by simp [JobStep.clears]) member
  | finish =>
      obtain ⟨name, retained, -, rfl⟩ := steps
      exact kept (by simp [JobStep.clears]) member
  | checkClose =>
      obtain ⟨name, retained, -,
        ⟨-, rfl⟩ | ⟨sandbox, -, -, ⟨-, rfl⟩ | ⟨-, rfl⟩⟩⟩ :=
        JobState.checkClose_cases steps
      · exact kept (by simp [JobStep.clears]) member
      · exact kept (by simp [JobStep.clears]) (removed member)
      · exact kept (by simp [JobStep.clears]) (removed member)
  | reclaimConcluded =>
      obtain ⟨sandbox, -, rfl⟩ := steps
      exact kept (by simp [JobStep.clears]) (removed member)
  | keep name =>
      obtain rfl := steps
      refine changed (by simp [JobStep.clears]) rfl Job.keeps_keep ?_ member
      intro row holds
      unfold Job.keep at holds
      split_ifs at holds <;> exact holds
  | stop name force =>
      obtain ⟨row, -, -, accepted⟩ := steps
      have unset : ∀ row : Job, (row.stop force).starting = true ->
          row.starting = true := by
        intro row holds
        cases force <;> exact holds
      split_ifs at accepted
      · rw [accepted] at member
        exact changed (by simp [JobStep.clears]) rfl (Job.keeps_stop force)
          unset ((JobState.rows_takeClosable_sublist _ _).subset member)
      · rw [accepted] at member
        exact changed (by simp [JobStep.clears]) rfl (Job.keeps_stop force)
          unset member
  | reclaim sandbox =>
      obtain ⟨rest, -, rfl⟩ := steps
      exact kept (by simp [JobStep.clears]) (removed member)
  | closeSandbox sandbox =>
      obtain rfl := steps
      exact kept (by simp [JobStep.clears]) (removed member)
  | cancel =>
      obtain rfl := steps
      exact kept (by simp [JobStep.clears]) member
  | killAll killable =>
      obtain rfl := steps
      obtain ⟨row, rowMember, rfl⟩ := List.mem_map.mp member
      refine .inl ⟨by simp [JobStep.clears], row, rowMember, ?_⟩
      split_ifs at starting ⊢ <;> exact ⟨rfl, rfl, starting⟩
  | releaseAll =>
      obtain rfl := steps
      obtain ⟨row, rowMember, rfl⟩ := List.mem_map.mp member
      exact .inl ⟨by simp [JobStep.clears], row, rowMember, rfl, rfl, starting⟩

/-- A section that does not return past the row it is reserved for keeps every
reservation held. -/
theorem reservationsHeld_of_step
    (formed : state.WellFormed)
    (held : state.ReservationsHeld)
    (steps : state.Steps step next)
    (releases : state.ReleasesLaunch step) : next.ReservationsHeld := by
  intro job member starting
  obtain ⟨stays, row, rowMember, named, sited, reserved⟩ | new :=
    starting_of_step formed steps member starting
  · obtain ⟨task, taskMember, reserves⟩ := held row rowMember reserved
    rw [named, sited] at reserves
    have found := formed.find_of_mem rowMember
    rw [named] at found
    obtain after | cleared | ⟨cmd, owned, rfl, unbuilt⟩ |
      ⟨cmd, sandbox, owned, tree, rfl⟩ :=
      reserved_of_step steps taskMember reserves
    · exact after
    · exact absurd cleared stays
    · have built := releases row found sited
      simp [found, built] at unbuilt
    · obtain lost | unreserved := releases
      · simp at lost
      · rw [unreserved row found sited] at reserved
        simp at reserved
  · exact new

end Step

/-- In every run whose launches all look at the row they are reserved for, a
row is reserved only while a launch reserved for it is in progress. -/
theorem reservationsHeld_of_releasesLaunch
    {state : JobState}
    (reachable : (jobMachine.restrict JobState.ReleasesLaunch).Reachable state) :
    state.ReservationsHeld := by
  refine reachable.invariant JobState.ReservationsHeld ?_ ?_
  · rintro state rfl job member
    simp [JobState.empty] at member
  · intro state step next reached held steps
    exact reservationsHeld_of_step (.of_reachable reached.of_restrict) held
      steps.1 steps.2

/-! ## A launch that returns past its row -/

/-- The row of a job that a spawn has reserved for no command. -/
def spawnedJob : Job :=
  .reserve "job" "u1" false none

/-- A job whose spawn is still building its resources. -/
def spawnedState : JobState :=
  { JobState.empty with
    table := ⟨[spawnedJob], 1⟩
    tasks := {.building "job" ⟨"job", "u1"⟩ none}
    issued := ["u1"] }

theorem spawnedState_steps :
    JobState.empty.Steps (.spawn "job" "u1" false none) spawnedState :=
  ⟨1, ⟨rfl, rfl⟩, by simp [JobState.empty], rfl⟩

/-- The same job, started before its resources are built. -/
def startedState : JobState :=
  { spawnedState with
    table := ⟨[spawnedJob.start], 1⟩
    tasks := .waiting "job" "true" ⟨"job", "u1"⟩ ::ₘ spawnedState.tasks }

theorem startedState_steps :
    spawnedState.Steps (.startIn "job" "true") startedState :=
  ⟨spawnedJob, rfl, rfl, rfl, rfl, rfl⟩

/-- A launch fails and clears its reservation, and the job is started again: its
row is reserved for the second launch, which is in progress. -/
theorem reservationsHeld_of_releasesLaunch_again :
    ∃ state : JobState, state.ReservationsHeld ∧
      state.table.rows = [spawnedJob.build.start] ∧
        state.tasks = {.waiting "job" "true" ⟨"job", "u1"⟩,
          .failing "job" ⟨"job", "u1"⟩} := by
  let system := jobMachine.restrict JobState.ReleasesLaunch
  have spawned : system.Reachable _ :=
    .step (.spawn "job" "u1" false (some "ls")) (.start rfl)
      ⟨⟨1, ⟨rfl, rfl⟩, List.not_mem_nil, rfl⟩, trivial⟩
  have built : system.Reachable _ :=
    .step (.build "job" ⟨"job", "u1"⟩ (some "ls")) spawned
      ⟨⟨0, rfl, rfl, rfl⟩, trivial⟩
  have prepared : system.Reachable _ :=
    .step (.prepare "job" "ls" ⟨"job", "u1"⟩ true) built
      ⟨⟨0, rfl, rfl⟩, by rintro _ ⟨⟩ -; rfl⟩
  have failed : system.Reachable _ :=
    .step (.failLaunch "job" "ls" ⟨"job", "u1"⟩ ⟨"job", "u1"⟩ true none true)
      prepared ⟨⟨0, rfl, rfl⟩, .inl rfl⟩
  have restarted : system.Reachable _ :=
    .step (.startIn "job" "true") failed
      ⟨⟨spawnedJob.build, rfl, rfl, rfl, rfl, rfl⟩, trivial⟩
  exact ⟨_, reservationsHeld_of_releasesLaunch restarted, rfl, rfl⟩

/-- A job whose launch found no resources, after they were built. -/
def strandedState : JobState :=
  { JobState.empty with
    table := ⟨[spawnedJob.start.build], 1⟩
    issued := ["u1"] }

/-- A launch that finds its row without resources leaves the row reserved. -/
theorem not_reservationsHeld_of_unbuilt :
    jobMachine.Reachable strandedState ∧ ¬ strandedState.ReservationsHeld := by
  constructor
  · have started : jobMachine.Reachable startedState :=
      .step (.startIn "job" "true")
        (.step (.spawn "job" "u1" false none) (.start rfl) spawnedState_steps)
        startedState_steps
    have waited : jobMachine.Reachable
        { startedState with
          tasks := .preparing "job" "true" ⟨"job", "u1"⟩ false ::ₘ
            spawnedState.tasks } :=
      .step (.waited "job" "true" ⟨"job", "u1"⟩) started
        ⟨.inr rfl, spawnedState.tasks, rfl, rfl⟩
    have failed : jobMachine.Reachable
        { startedState with tasks := spawnedState.tasks } :=
      .step (.prepare "job" "true" ⟨"job", "u1"⟩ false) waited
        ⟨spawnedState.tasks, rfl, rfl⟩
    exact .step (.build "job" ⟨"job", "u1"⟩ none) failed ⟨0, rfl, rfl, rfl⟩
  · intro held
    obtain ⟨task, member, -⟩ := held _ List.mem_cons_self rfl
    simp [strandedState, JobState.empty] at member

end Shellmux
end Marsh
