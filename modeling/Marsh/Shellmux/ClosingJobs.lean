import Marsh.Shellmux.LaunchReservations
import Marsh.Shellmux.SnapshotLifetime

/-!
# Jobs that are to close

A closing job leaves the table once nothing of it is in flight.  Which operation
removes it is handed on from section to section.
-/

namespace Marsh
namespace Shellmux

open Library

/-! ## Who is to close a job -/

/-- A section of a session that goes on: not one of its shutdown, and no job is
closed by hand. -/
def JobStep.InSession : JobStep -> Prop
  | .closeSandbox _ | .cancel | .killAll _ | .releaseAll => False
  | _ => True

namespace JobState

/-- A launch of the job is in progress. -/
def Launching (state : JobState) (id : String) : Prop :=
  ∃ task ∈ state.tasks, task.reservedName = some id

/-- The conclusion task has concluded a command of the job and is to check
whether the job closes. -/
def Reporting (state : JobState) (id : String) : Prop :=
  ∃ retained, state.concluder = .reporting id retained ∨
    state.concluder = .closing id retained

/-- A failed launch of the job is to be reported. -/
def Failing (state : JobState) (id : String) : Prop :=
  ∃ origin, Task.failing id origin ∈ state.tasks

/-- A command of the job has ended and is not concluded, or an operation is to
revisit the job. -/
def Pendent (state : JobState) (id : String) : Prop :=
  state.Gap id ∨ state.Owes id ∨ state.Reporting id ∨ state.Failing id

/-- The job has a command that is starting, running, queued or concluding, or an
operation is to revisit it. -/
def Attended (state : JobState) (job : Job) : Prop :=
  state.Launching job.id ∨ job.running.isSome ∨ state.Pendent job.id

/-- The snapshot belongs to a job in the table, or is about to be reclaimed. -/
def Sheltered (state : JobState) (uid : String) : Prop :=
  (∃ job ∈ state.table.rows, job.sandbox.uid = uid) ∨
    ∃ sandbox : Sandbox, sandbox.uid = uid ∧
      (Task.reclaiming sandbox ∈ state.tasks ∨
        state.concluder = .reclaiming sandbox)

/-- Every closing job is attended, and every snapshot is a job's. -/
def NoneStranded (state : JobState) : Prop :=
  (∀ job ∈ state.table.rows, job.close.isSome -> state.Attended job) ∧
    ∀ uid ∈ state.trees, state.Sheltered uid

/-- A launch that fails hands its closing job over, a spawn refused its size has
left no snapshot, and no command's processes outlive it. -/
def HandsOver (state : JobState) : JobStep -> Prop
  | .failLaunch id _ _ _ false _ _ =>
      ∀ job, state.table.find id = some job -> job.close.isSome ->
        state.Pendent id
  | .refuseSize _ sandbox _ => sandbox.uid ∉ state.trees
  | .conclude retained => retained = false
  | _ => True

/-- What a section of a session must do for no closing job to be stranded. -/
def ClosesJobs (state : JobState) (step : JobStep) : Prop :=
  step.InSession ∧ state.KeepsSeats step ∧ state.ReleasesLaunch step ∧
    state.HandsOver step

/-! ## Quiet closing rows -/

section Step

variable {state next : JobState} {step : JobStep}

/-- The queue of a session is open. -/
theorem queue_open_of_step
    (opened : state.queue.closed = false)
    (steps : state.Steps step next)
    (inSession : step.InSession) : next.queue.closed = false := by
  cases step with
  | submit conclusion =>
      obtain ⟨rest, -, rfl⟩ := steps
      simp [ConclusionQueue.submit, opened]
  | reportFailure id origin =>
      obtain ⟨rest, -, rfl⟩ := steps
      simpa using opened
  | stop id force =>
      obtain ⟨job, -, -, rfl⟩ := steps
      split_ifs <;> simpa [acceptStop] using opened
  | checkClose =>
      obtain ⟨id, retained, -, ⟨-, rfl⟩ | ⟨sandbox, -, -, ⟨-, rfl⟩ | ⟨-, rfl⟩⟩⟩ :=
        checkClose_cases steps <;> exact opened
  | cancel => exact inSession.elim
  | spawn | refuseSpawn | build | failBuild | refuseSize | startIn | waited
  | prepare | launch | failLaunch | publish | reap | take | conclude | finish
  | reclaimConcluded | keep | reclaim | closeSandbox | killAll | releaseAll =>
      simp only [Steps, closeSandbox, ConclusionQueue.finish] at steps
      grind

/-- A queued conclusion waits until the conclusion task takes it. -/
theorem queued_of_step
    (steps : state.Steps step next)
    {conclusion : Conclusion}
    (queued : conclusion ∈ state.queue.pending) :
    conclusion ∈ next.queue.pending ∨ next.concluder = .concluding conclusion := by
  cases step with
  | submit submitted =>
      obtain ⟨rest, -, rfl⟩ := steps
      refine .inl ?_
      simp only [ConclusionQueue.submit]
      split_ifs
      · exact queued
      · exact List.mem_append_left _ queued
  | take =>
      obtain ⟨taken, rest, -, pending, rfl⟩ := steps
      rw [pending] at queued
      rcases List.mem_cons.mp queued with rfl | later
      · exact .inr rfl
      · exact .inl later
  | reportFailure id origin =>
      obtain ⟨rest, -, rfl⟩ := steps
      simpa using .inl queued
  | stop id force =>
      obtain ⟨job, -, -, rfl⟩ := steps
      split_ifs <;> simpa [acceptStop] using .inl queued
  | checkClose =>
      obtain ⟨id, retained, -, ⟨-, rfl⟩ | ⟨sandbox, -, -, ⟨-, rfl⟩ | ⟨-, rfl⟩⟩⟩ :=
        checkClose_cases steps <;> exact .inl queued
  | spawn | refuseSpawn | build | failBuild | refuseSize | startIn | waited
  | prepare | launch | failLaunch | publish | reap | conclude | finish
  | reclaimConcluded | keep | reclaim | closeSandbox | cancel | killAll
  | releaseAll =>
      simp only [Steps, closeSandbox, ConclusionQueue.finish,
        ConclusionQueue.cancel] at steps
      grind

/-- The conclusion task's steps go round from taking a conclusion to taking the
next. -/
theorem concluder_of_step
    (steps : state.Steps step next) :
    next.concluder = state.concluder ∨
      match state.concluder with
      | .taking => step = .take
      | .concluding conclusion =>
          ∃ retained, step = .conclude retained ∧
            next.concluder = .reporting conclusion.id retained
      | .reporting id retained =>
          step = .finish ∧ next.concluder = .closing id retained
      | .closing _ _ => step = .checkClose
      | .reclaiming _ => step = .reclaimConcluded := by
  cases step with
  | take =>
      obtain ⟨taken, rest, taking, -, rfl⟩ := steps
      rw [taking]
      exact .inr rfl
  | conclude retained =>
      obtain ⟨conclusion, concluding, rfl⟩ := steps
      rw [concluding]
      exact .inr ⟨retained, rfl, rfl⟩
  | finish =>
      obtain ⟨id, retained, reporting, rfl⟩ := steps
      rw [reporting]
      exact .inr ⟨rfl, rfl⟩
  | checkClose =>
      obtain ⟨id, retained, closing, -⟩ := checkClose_cases steps
      rw [closing]
      exact .inr rfl
  | reclaimConcluded =>
      obtain ⟨sandbox, reclaiming, rfl⟩ := steps
      rw [reclaiming]
      exact .inr rfl
  | reportFailure id origin =>
      obtain ⟨rest, -, rfl⟩ := steps
      simp
  | stop id force =>
      obtain ⟨job, -, -, rfl⟩ := steps
      split_ifs <;> simp [acceptStop]
  | spawn | refuseSpawn | build | failBuild | refuseSize | startIn | waited
  | prepare | launch | failLaunch | publish | reap | submit | keep | reclaim
  | closeSandbox | cancel | killAll | releaseAll =>
      simp only [Steps, closeSandbox] at steps
      grind

/-- What is pendent stays so until the section that revisits the job. -/
theorem Pendent.of_step
    {id : String}
    (pendent : state.Pendent id)
    (opened : state.queue.closed = false)
    (steps : state.Steps step next) :
    next.Pendent id ∨ (∃ origin, step = .reportFailure id origin) ∨
      step = .checkClose ∧ ∃ retained, state.concluder = .closing id retained := by
  rcases pendent with ⟨conclusion, named, member⟩ |
    ⟨conclusion, named, member | concluding⟩ | ⟨retained, concluder⟩ |
    ⟨origin, member⟩
  · -- The reaped command is submitted.
    by_cases submits : step = .submit conclusion
    · rw [submits] at steps
      obtain ⟨rest, -, rfl⟩ := steps
      refine .inl (.inr (.inl ⟨conclusion, named, .inl ?_⟩))
      simp [ConclusionQueue.submit, opened]
    · refine .inl (.inl ⟨conclusion, named, mem_tasks_of_step steps member ?_⟩)
      intro consumes
      cases step <;> simp_all [JobStep.consumes]
  · -- The queued conclusion is taken.
    obtain queued | taken := queued_of_step steps member
    · exact .inl (.inr (.inl ⟨conclusion, named, .inl queued⟩))
    · exact .inl (.inr (.inl ⟨conclusion, named, .inr taken⟩))
  · -- It is concluded.
    have moves := concluder_of_step steps
    rw [concluding] at moves
    obtain same | ⟨retained, -, reports⟩ := moves
    · exact .inl (.inr (.inl ⟨conclusion, named, .inr same⟩))
    · exact .inl (.inr (.inr (.inl ⟨retained, .inl (named ▸ reports)⟩)))
  · -- Its conclusion is reported, and the job is checked.
    have moves := concluder_of_step steps
    rcases concluder with reporting | closing
    · rw [reporting] at moves
      obtain same | ⟨-, closes⟩ := moves
      · exact .inl (.inr (.inr (.inl ⟨retained, .inl same⟩)))
      · exact .inl (.inr (.inr (.inl ⟨retained, .inr closes⟩)))
    · rw [closing] at moves
      obtain same | checks := moves
      · exact .inl (.inr (.inr (.inl ⟨retained, .inr same⟩)))
      · exact .inr (.inr ⟨checks, retained, closing⟩)
  · by_cases reports : step = .reportFailure id origin
    · exact .inr (.inl ⟨origin, reports⟩)
    · refine .inl (.inr (.inr (.inr ⟨origin, mem_tasks_of_step steps member ?_⟩)))
      intro consumes
      cases step <;> simp_all [JobStep.consumes]

/-- Where a quiet closing row comes from: it was one before, or its command has
just ended, or its launch has just failed, or it was to be closed. -/
def ClosableFrom (state : JobState) (step : JobStep) (id : String) : Prop :=
  (∃ row ∈ state.table.rows, row.id = id ∧
      JobTable.closable row.id row = true) ∨
    (∃ pid started, step = .reap id pid ∧
      ∀ next, state.Steps step next -> .submitting ⟨id, started⟩ ∈ next.tasks) ∨
    (∃ row ∈ state.table.rows, row.id = id ∧ row.close.isSome ∧
      ∃ cmd origin sandbox owned tree,
        step = .failLaunch id cmd origin sandbox owned tree true) ∨
    (∃ origin, step = .reportFailure id origin) ∨ ∃ force, step = .stop id force

theorem closable_of_step
    (steps : state.Steps step next)
    {job : Job}
    (member : job ∈ next.table.rows)
    (closable : JobTable.closable job.id job = true) :
    state.ClosableFrom step job.id := by
  have same : job ∈ state.table.rows -> state.ClosableFrom step job.id :=
    fun old => .inl ⟨job, old, rfl, closable⟩
  have changed : ∀ {change : Job -> Job}, Job.Keeps change ->
      (∀ row, JobTable.closable row.id (change row) = true ->
        JobTable.closable row.id row = true) ->
      job ∈ state.table.rows.map change -> state.ClosableFrom step job.id := by
    intro change keeps quiet old
    obtain ⟨row, rowMember, rfl⟩ := List.mem_map.mp old
    refine .inl ⟨row, rowMember, (keeps row).1.symm, quiet row ?_⟩
    rwa [(keeps row).1] at closable
  have updated : ∀ {id : String} {change : Job -> Job}, Job.Keeps change ->
      (∀ row ∈ state.table.rows, row.id = id ->
        JobTable.closable row.id (change row) = true ->
        state.ClosableFrom step row.id) ->
      job ∈ (state.table.update id change).rows ->
      state.ClosableFrom step job.id := by
    intro id change keeps own old
    obtain ⟨row, rowMember, rfl⟩ := List.mem_map.mp old
    by_cases named : row.id = id
    · simp only [named, if_true] at closable ⊢
      rw [(keeps row).1] at closable ⊢
      exact own row rowMember named closable
    · simp only [named, if_false] at closable ⊢
      exact .inl ⟨row, rowMember, rfl, closable⟩
  cases step with
  | spawn id uid anonymous cmd =>
      obtain ⟨counter, -, -, rfl⟩ := steps
      rcases List.mem_append.mp member with old | new
      · exact same old
      · obtain rfl := List.mem_singleton.mp new
        cases cmd <;> simp [JobTable.closable, Job.reserve] at closable
  | build id sandbox cmd =>
      obtain ⟨rest, -, -, rfl⟩ := steps
      exact updated Job.keeps_build
        (fun row old named quiet => .inl ⟨row, old, rfl, quiet⟩) member
  | failBuild id sandbox cmd =>
      obtain ⟨rest, -, rfl⟩ := steps
      exact same ((state.table.rows_remove_sublist _).subset member)
  | refuseSize id sandbox cmd =>
      obtain ⟨rest, -, -, -, rfl⟩ := steps
      exact same ((state.table.rows_remove_sublist _).subset member)
  | startIn id cmd =>
      obtain ⟨row, -, -, -, -, rfl⟩ := steps
      refine updated Job.keeps_start (fun row _ _ quiet => ?_) member
      simp [JobTable.closable, Job.start] at quiet
  | failLaunch id cmd origin sandbox owned tree cleared =>
      obtain ⟨rest, -, rfl⟩ := steps
      cases cleared
      · exact same member
      · refine updated Job.keeps_clear (fun row old named quiet => ?_) member
        refine .inr (.inr (.inl ⟨row, old, rfl, ?_, cmd, origin, sandbox, owned,
          tree, by rw [named]⟩))
        simp only [JobTable.closable, Job.clear, Bool.and_eq_true] at quiet
        exact quiet.1.1.2
  | publish id origin started killed =>
      obtain ⟨rest, -, rfl⟩ := steps
      refine updated (Job.keeps_publish started killed) (fun row _ _ quiet => ?_)
        member
      unfold Job.publish at quiet
      split_ifs at quiet <;> simp [JobTable.closable] at quiet
  | reportFailure id origin =>
      obtain ⟨rest, -, rfl⟩ := steps
      refine updated Job.keeps_drain (fun row _ named _ => ?_)
        ((rows_takeClosable_sublist _ _).subset member)
      exact .inr (.inr (.inr (.inl ⟨origin, by rw [named]⟩)))
  | reap id pid =>
      obtain ⟨rest, pending, ⟨row, started, found, runs, same, rfl⟩ | ⟨-, rfl⟩⟩ :=
        steps
      · refine updated Job.keeps_reap (fun row _ named _ => ?_) member
        refine .inr (.inl ⟨pid, started, by rw [named], fun next taken => ?_⟩)
        obtain ⟨others, -, ⟨job, other, again, runsAgain, -, rfl⟩ | ⟨apart, -⟩⟩ :=
          taken
        · obtain rfl := Option.some.inj (found.symm.trans again)
          obtain rfl := Option.some.inj (runs.symm.trans runsAgain)
          rw [named]
          exact Multiset.mem_cons_self _ _
        · exact absurd same (apart _ found _ runs)
      · exact same member
  | checkClose =>
      obtain ⟨id, retained, -, ⟨-, rfl⟩ | ⟨sandbox, -, -, ⟨-, rfl⟩ | ⟨-, rfl⟩⟩⟩ :=
        checkClose_cases steps
      · exact same member
      · exact same ((state.table.rows_remove_sublist _).subset member)
      · exact same ((state.table.rows_remove_sublist _).subset member)
  | reclaimConcluded =>
      obtain ⟨sandbox, -, rfl⟩ := steps
      exact same ((state.table.rows_remove_sublist _).subset member)
  | keep id =>
      obtain rfl := steps
      refine updated Job.keeps_keep (fun row old named quiet => ?_) member
      unfold Job.keep at quiet
      split_ifs at quiet
      · simp [JobTable.closable] at quiet
      · exact .inl ⟨row, old, rfl, quiet⟩
  | stop id force =>
      obtain ⟨row, -, -, next⟩ := steps
      have stopped : job ∈ (state.acceptStop id force row.sandbox).table.rows := by
        rw [next] at member
        split_ifs at member
        · exact (rows_takeClosable_sublist _ _).subset member
        · exact member
      exact updated (Job.keeps_stop force) (fun row _ named _ =>
        .inr (.inr (.inr (.inr ⟨force, by rw [named]⟩)))) stopped
  | reclaim sandbox =>
      obtain ⟨rest, -, rfl⟩ := steps
      exact same ((state.table.rows_remove_sublist _).subset member)
  | closeSandbox sandbox =>
      obtain rfl := steps
      exact same ((state.table.rows_remove_sublist _).subset member)
  | killAll killable =>
      obtain rfl := steps
      refine changed (Job.keeps_killable killable) (fun row quiet => ?_) member
      split_ifs at quiet
      · simpa [JobTable.closable, Job.kill] using quiet
      · exact quiet
  | releaseAll =>
      obtain rfl := steps
      exact changed Job.keeps_release (fun row quiet => quiet) member
  | refuseSpawn | waited | prepare | launch | submit | take | conclude | finish
  | cancel =>
      simp only [Steps] at steps
      grind

/-- Checking a name for a closable row leaves none. -/
theorem not_closable_of_takeClosable
    (named : (state.table.rows.map Job.id).Nodup)
    {id : String}
    {job : Job}
    (member : job ∈ (state.takeClosable id).table.rows) :
    JobTable.closable id job = false := by
  obtain ⟨none, same⟩ | ⟨sandbox, takes, same⟩ := state.takeClosable_cases id
  · rw [same] at member
    rw [JobTable.takeClosable, Option.map_eq_none_iff, List.find?_eq_none] at none
    simpa using none job member
  · rw [same] at member
    obtain ⟨-, -, -, -, -, -, finds⟩ := JobTable.takeClosable_eq_some named takes
    have absent := finds id
    rw [if_pos rfl, JobTable.find, List.find?_eq_none] at absent
    have apart := absent job member
    simp only [decide_eq_true_eq] at apart
    simp [JobTable.closable, apart]

/-- A job that is busy with conclusions owes one, or one is to be marked
reported. -/
theorem owes_of_busy
    (tallied : state.Tallied)
    {id : String}
    (busy : state.queue.idle id = false) :
    state.Owes id ∨ ∃ retained, state.concluder = .reporting id retained := by
  have owed : 0 < state.unreported id := by
    rw [← tallied id]
    simp only [ConclusionQueue.idle, decide_eq_false_iff_not] at busy
    omega
  by_contra free
  obtain ⟨owes, reporting⟩ := not_or.mp free
  have reported : state.concluder.reportingCount id = 0 := by
    cases same : state.concluder with
    | reporting name retained =>
        refine if_neg fun named => reporting ⟨retained, ?_⟩
        rw [same, named]
    | taking | concluding | closing | reclaiming => rfl
  have none := owed_eq_zero owes
  rw [unreported] at owed
  omega

/-- What the sections of a session keep. -/
structure Handed (state : JobState) : Prop where
  formed : state.WellFormed
  seated : state.Seated
  held : state.ReservationsHeld
  opened : state.queue.closed = false
  proven : ∀ id retained, state.concluder = .reporting id retained ∨
    state.concluder = .closing id retained -> retained = false
  pendent : ∀ job ∈ state.table.rows, JobTable.closable job.id job = true ->
    state.Pendent job.id
  sheltered : ∀ uid ∈ state.trees, state.Sheltered uid

/-- A quiet closing row is revisited by an operation in progress. -/
theorem pendent_of_step
    (handed : state.Handed)
    (steps : state.Steps step next)
    (closes : state.ClosesJobs step) :
    ∀ job ∈ next.table.rows, JobTable.closable job.id job = true ->
      next.Pendent job.id := by
  intro job member closable
  obtain ⟨inSession, -, -, handsOver⟩ := closes
  have formed := handed.formed
  have checked : ∀ jobs : JobState, (jobs.table.rows.map Job.id).Nodup ->
      job ∈ (jobs.takeClosable job.id).table.rows -> False := by
    intro jobs named taken
    rw [not_closable_of_takeClosable named taken] at closable
    contradiction
  have reported : ∀ origin, step ≠ .reportFailure job.id origin := by
    rintro origin rfl
    obtain ⟨rest, -, rfl⟩ := steps
    exact checked _ ((state.table.names_change fun row =>
      (Job.keeps_drain.onName job.id row).1).symm ▸ formed.named) member
  obtain ⟨row, rowMember, named, was⟩ | ⟨pid, started, rfl, ended⟩ |
    ⟨row, rowMember, named, closing, cmd, origin, sandbox, owned, tree, rfl⟩ |
    ⟨origin, reports⟩ | ⟨force, rfl⟩ := closable_of_step steps member closable
  · have before := handed.pendent row rowMember was
    rw [named] at before
    obtain after | ⟨origin, reports⟩ | ⟨rfl, retained, closing⟩ :=
      before.of_step handed.opened steps
    · exact after
    · exact absurd reports (reported origin)
    · obtain ⟨id, kept, again, ⟨free, rfl⟩ | ⟨sandbox, idle, takes, taken⟩⟩ :=
          checkClose_cases steps <;>
        obtain ⟨rfl, -⟩ := ConcludeTask.closing.inj (closing.symm.trans again)
      · by_cases idle : state.queue.idle job.id = true
        · have unclosed := free idle
          rw [JobTable.takeClosable, Option.map_eq_none_iff,
            List.find?_eq_none] at unclosed
          exact absurd closable (unclosed job member)
        · obtain ⟨conclusion, same, queued | concluding⟩ | ⟨_, reporting⟩ :=
            owes_of_busy formed.tallied (by simpa using idle)
          · exact .inr (.inl ⟨conclusion, same, .inl queued⟩)
          · rw [closing] at concluding
            contradiction
          · rw [closing] at reporting
            contradiction
      · have rows : next.table =
            state.table.remove (JobTable.closable job.id) := by
          rcases taken with ⟨-, rfl⟩ | ⟨-, rfl⟩ <;> rfl
        obtain ⟨-, -, -, -, -, -, finds⟩ :=
          JobTable.takeClosable_eq_some formed.named takes
        have absent := finds job.id
        rw [if_pos rfl, ← rows, (formed.step steps).find_of_mem member] at absent
        contradiction
  · exact .inl ⟨⟨job.id, started⟩, rfl, ended next steps⟩
  · cases owned with
    | true =>
        obtain ⟨rest, -, rfl⟩ := steps
        exact .inr (.inr (.inr ⟨origin, by simp [failureTask]⟩))
    | false =>
        have found := formed.find_of_mem rowMember
        rw [named] at found
        obtain after | ⟨_, reports⟩ | ⟨checks, -⟩ :=
          (handsOver row found closing).of_step handed.opened steps
        · exact after
        · contradiction
        · contradiction
  · exact absurd reports (reported origin)
  · obtain ⟨row, -, -, rfl⟩ := steps
    split_ifs at member ⊢ with idle
    · exact (checked _ ((state.table.names_change fun row =>
        ((Job.keeps_stop force).onName job.id row).1).symm ▸ formed.named)
        member).elim
    · obtain owes | ⟨retained, reporting⟩ :=
        owes_of_busy formed.tallied (by simpa using idle)
      · exact .inr (.inl owes)
      · exact .inr (.inr (.inl ⟨retained, .inl reporting⟩))

/-- A row whose snapshot is on disk stays, or its snapshot is reclaimed. -/
theorem sheltered_of_row
    (handed : state.Handed)
    (steps : state.Steps step next)
    (closes : state.ClosesJobs step)
    {row : Job}
    (member : row ∈ state.table.rows)
    (planted : row.sandbox.uid ∈ next.trees) :
    next.Sheltered row.sandbox.uid := by
  have same : next.table.rows = state.table.rows ->
      next.Sheltered row.sandbox.uid :=
    fun rows => .inl ⟨row, rows ▸ member, rfl⟩
  have updated : ∀ (id : String) {change : Job -> Job}, Job.Keeps change ->
      next.table = state.table.update id change ->
      next.Sheltered row.sandbox.uid := by
    intro id change keeps rows
    refine .inl ⟨_, ?_, congrArg Sandbox.uid (keeps.onName id row).2⟩
    rw [rows]
    exact List.mem_map_of_mem member
  -- The row that is taken to be closed is reclaimed.
  have taken : ∀ (jobs : JobState) (id : String) {change : Job -> Job},
      Job.Keeps change -> jobs.table = state.table.change change ->
      next = jobs.takeClosable id -> next.Sheltered row.sandbox.uid := by
    intro jobs id change keeps rows after
    have changed : change row ∈ jobs.table.rows := by
      rw [rows]
      exact List.mem_map_of_mem member
    have uid : (change row).sandbox.uid = row.sandbox.uid := by
      rw [(keeps row).2]
    obtain ⟨-, unchanged⟩ | ⟨sandbox, takes, reclaims⟩ :=
      jobs.takeClosable_cases id
    · rw [after, unchanged]
      exact .inl ⟨change row, changed, uid⟩
    · rw [after, reclaims]
      obtain stays | gone := JobTable.mem_remove (JobTable.closable id) changed
      · exact .inl ⟨change row, stays, uid⟩
      · rw [JobTable.takeClosable, gone, Option.map_some, Option.some.injEq,
          Prod.mk.injEq] at takes
        exact .inr ⟨sandbox, by rw [← takes.1, uid],
          .inl (Multiset.mem_cons_self _ _)⟩
  -- The row that is forgotten loses its snapshot.
  have forgotten : ∀ sandbox : Sandbox,
      next.table = state.table.forget sandbox.uid ->
      next.trees = state.trees.erase sandbox.uid ->
      next.Sheltered row.sandbox.uid := by
    intro sandbox rows trees
    obtain stays | gone := JobTable.mem_remove
      (fun job => job.sandbox.uid = sandbox.uid) member
    · exact .inl ⟨row, rows ▸ stays, rfl⟩
    · have erased : row.sandbox.uid = sandbox.uid := by
        simpa using List.find?_some gone
      rw [trees, erased] at planted
      exact absurd rfl (Finset.mem_erase.mp planted).1
  obtain ⟨inSession, keeps, -, hands⟩ := closes
  -- The row a spawn gives up is of a sandbox without a snapshot.
  have gaveUp : ∀ {id : String} {sandbox : Sandbox},
      next.table = state.table.remove (fun job => job.id = id) ->
      next.trees = state.trees ->
      (∀ job, state.table.find id = some job -> job.sandbox = sandbox) ->
      sandbox.uid ∉ state.trees -> next.Sheltered row.sandbox.uid := by
    intro id sandbox rows trees own treeless
    obtain stays | gone := JobTable.mem_remove (fun job => job.id = id) member
    · exact .inl ⟨row, rows ▸ stays, rfl⟩
    · have named : row.id = id := by simpa using List.find?_some gone
      have found := handed.formed.find_of_mem member
      rw [named] at found
      rw [trees, own row found] at planted
      exact absurd planted treeless
  cases step with
  | spawn id uid anonymous cmd =>
      obtain ⟨counter, -, -, rfl⟩ := steps
      exact .inl ⟨row, List.mem_append_left _ member, rfl⟩
  | build id sandbox cmd =>
      obtain ⟨rest, -, -, rfl⟩ := steps
      exact updated id Job.keeps_build rfl
  | failBuild id sandbox cmd =>
      obtain ⟨rest, pending, rfl⟩ := steps
      exact gaveUp rfl rfl (fun job found => (keeps job found).1)
        (handed.seated.unused id sandbox cmd pending.self).treeless
  | refuseSize id sandbox cmd =>
      obtain ⟨rest, -, -, -, rfl⟩ := steps
      exact gaveUp rfl rfl (fun job found => (keeps job found).1) hands
  | startIn id cmd =>
      obtain ⟨job, -, -, -, -, rfl⟩ := steps
      exact updated id Job.keeps_start rfl
  | failLaunch id cmd origin sandbox owned tree cleared =>
      obtain ⟨rest, -, rfl⟩ := steps
      cases cleared
      · exact same rfl
      · exact updated id Job.keeps_clear rfl
  | publish id origin started killed =>
      obtain ⟨rest, -, rfl⟩ := steps
      exact updated id (Job.keeps_publish started killed) rfl
  | reportFailure id origin =>
      obtain ⟨rest, -, changed⟩ := steps
      exact taken _ id (Job.keeps_drain.onName id) rfl changed
  | reap id pid =>
      obtain ⟨rest, -, ⟨job, started, -, -, -, rfl⟩ | ⟨-, rfl⟩⟩ := steps
      · exact updated id Job.keeps_reap rfl
      · exact same rfl
  | checkClose =>
      obtain ⟨id, retained, closing,
        ⟨-, rfl⟩ | ⟨sandbox, -, takes, ⟨kept, rfl⟩ | ⟨-, rfl⟩⟩⟩ :=
        checkClose_cases steps
      · exact same rfl
      · rw [handed.proven id retained (.inr closing)] at kept
        contradiction
      · obtain stays | gone := JobTable.mem_remove (JobTable.closable id) member
        · exact .inl ⟨row, stays, rfl⟩
        · rw [JobTable.takeClosable, gone, Option.map_some, Option.some.injEq,
            Prod.mk.injEq] at takes
          exact .inr ⟨sandbox, by rw [takes.1], .inr rfl⟩
  | reclaimConcluded =>
      obtain ⟨sandbox, -, rfl⟩ := steps
      exact forgotten sandbox rfl rfl
  | keep id =>
      obtain rfl := steps
      exact updated id Job.keeps_keep rfl
  | stop id force =>
      obtain ⟨job, -, -, changed⟩ := steps
      split_ifs at changed
      · exact taken _ id ((Job.keeps_stop force).onName id) rfl changed
      · exact updated id (Job.keeps_stop force) (by rw [changed]; rfl)
  | reclaim sandbox =>
      obtain ⟨rest, -, rfl⟩ := steps
      exact forgotten sandbox rfl rfl
  | refuseSpawn | waited | prepare | launch | submit | take | conclude
  | finish =>
      exact same (by simp only [Steps] at steps; grind)
  | closeSandbox | cancel | killAll | releaseAll => exact inSession.elim

/-- Every snapshot stays with a job, or is about to be reclaimed. -/
theorem sheltered_of_step
    (handed : state.Handed)
    (steps : state.Steps step next)
    (closes : state.ClosesJobs step) :
    ∀ uid ∈ next.trees, next.Sheltered uid := by
  intro uid planted
  have before : state.Sheltered uid := by
    obtain fewer | ⟨command, seat, -, trees⟩ := trees_of_step steps
    · exact handed.sheltered uid (fewer planted)
    · rw [trees] at planted
      rcases Finset.mem_insert.mp planted with rfl | old
      · obtain ⟨job, found, sited⟩ := handed.seated.housed command seat
        exact .inl ⟨job, JobTable.mem_of_find found, by rw [sited]⟩
      · exact handed.sheltered uid old
  obtain ⟨row, member, rfl⟩ | ⟨sandbox, rfl, task | concluder⟩ := before
  · exact sheltered_of_row handed steps closes member planted
  · by_cases reclaims : step = .reclaim sandbox
    · rw [reclaims] at steps
      obtain ⟨rest, -, rfl⟩ := steps
      exact absurd rfl (Finset.mem_erase.mp planted).1
    · refine .inr ⟨sandbox, rfl, .inl (mem_tasks_of_step steps task ?_)⟩
      intro consumes
      cases step <;> simp_all [JobStep.consumes]
  · have moves := concluder_of_step steps
    rw [concluder] at moves
    obtain same | rfl := moves
    · exact .inr ⟨sandbox, rfl, .inr same⟩
    · obtain ⟨other, again, rfl⟩ := steps
      obtain rfl := ConcludeTask.reclaiming.inj (concluder.symm.trans again)
      exact absurd rfl (Finset.mem_erase.mp planted).1

namespace Handed

/-- The empty machine has no job. -/
theorem empty : JobState.empty.Handed where
  formed := .empty
  seated := .empty
  held job member := absurd member List.not_mem_nil
  opened := rfl
  proven id retained reports := by
    rcases reports with reporting | closing <;> contradiction
  pendent job member := absurd member List.not_mem_nil
  sheltered uid planted := absurd planted (Finset.notMem_empty uid)

/-- A section of a session that hands every closing job over keeps what the
session keeps. -/
theorem of_step
    (handed : state.Handed)
    (steps : state.Steps step next)
    (closes : state.ClosesJobs step) : next.Handed where
  formed := handed.formed.step steps
  seated := handed.seated.of_step handed.formed steps closes.2.1
  held := reservationsHeld_of_step handed.formed handed.held steps closes.2.2.1
  opened := queue_open_of_step handed.opened steps closes.1
  proven id retained reports := by
    obtain same | moves := concluder_of_step steps
    · exact handed.proven id retained (same ▸ reports)
    · cases concluder : state.concluder with
      | concluding conclusion =>
          rw [concluder] at moves
          obtain ⟨kept, rfl, reporting⟩ := moves
          rw [reporting] at reports
          have proven : kept = false := closes.2.2.2
          grind
      | reporting name kept =>
          rw [concluder] at moves
          rw [moves.2] at reports
          have proven := handed.proven name kept (.inl concluder)
          grind
      | taking =>
          rw [concluder] at moves
          rw [moves] at steps
          obtain ⟨conclusion, rest, -, -, rfl⟩ := steps
          rcases reports with reporting | closing <;> contradiction
      | closing name kept =>
          rw [concluder] at moves
          rw [moves] at steps
          obtain ⟨name, kept, -,
            ⟨-, rfl⟩ | ⟨sandbox, -, -, ⟨-, rfl⟩ | ⟨-, rfl⟩⟩⟩ :=
            checkClose_cases steps <;>
          rcases reports with reporting | closing <;> contradiction
      | reclaiming sandbox =>
          rw [concluder] at moves
          rw [moves] at steps
          obtain ⟨other, -, rfl⟩ := steps
          rcases reports with reporting | closing <;> contradiction
  pendent := pendent_of_step handed steps closes
  sheltered := sheltered_of_step handed steps closes

/-- Every state a session reaches hands its closing jobs over. -/
theorem of_reachable
    (reachable : (jobMachine.restrict ClosesJobs).Reachable state) :
    state.Handed := by
  refine reachable.invariant Handed ?_ ?_
  · rintro state rfl
    exact .empty
  · rintro state step next - handed ⟨steps, closes⟩
    exact handed.of_step steps closes

/-- A closing job that is not quiet is attended by its launch or command. -/
theorem noneStranded (handed : state.Handed) : state.NoneStranded := by
  refine ⟨fun job member closing => ?_, handed.sheltered⟩
  by_cases running : job.running.isSome = true
  · exact .inr (.inl running)
  · cases starting : job.starting with
    | true =>
        obtain ⟨task, taskMember, reserves⟩ := handed.held job member starting
        exact .inl ⟨task, taskMember, by rw [Task.reservedName, reserves]; rfl⟩
    | false =>
        refine .inr (.inr (handed.pendent job member ?_))
        simpa [JobTable.closable, closing, starting] using running

end Handed

end Step

end JobState

/-- In every run of a session whose launches hand their closing jobs over, every
closing job has a command in flight or an operation that will revisit it, and
every snapshot belongs to a job or is about to be reclaimed. -/
theorem noneStranded_of_closesJobs
    {state : JobState}
    (reachable : (jobMachine.restrict JobState.ClosesJobs).Reachable state) :
    state.NoneStranded :=
  (JobState.Handed.of_reachable reachable).noneStranded

/-! ## A launch that fails in a closing job -/

/-- The sample command runs in a job that is to close. -/
def closingState : JobState :=
  .sample { sampleJob with
    running := some sampleStarted
    close := some .graceful } {"u1"} {.watching "alice" 7}

/-- A job that is stopped while its command runs is attended. -/
theorem noneStranded_of_closesJobs_stop : closingState.NoneStranded :=
  noneStranded_of_closesJobs
    (.step (.stop "alice" false)
      (reachable_running (by
        simp [sampleRun, JobState.ClosesJobs, JobStep.InSession,
          JobState.KeepsSeats, JobState.ReleasesLaunch, JobState.HandsOver,
          JobState.sample, JobTable.find, Job.reserve, Job.start, sampleJob,
          sampleSandbox]))
      ⟨⟨{ sampleJob with running := some sampleStarted }, rfl, rfl, rfl⟩,
        trivial, trivial, trivial, trivial⟩)

/-- The sample job while a launch of `start_in` is in progress in it. -/
def startingState (job : Job) (task : Task) : JobState :=
  .sample job ∅ {task}

/-- The same job stopped before its launch failed. -/
def failedState : JobState :=
  .sample { sampleJob with close := some .graceful } ∅ 0

/-- A launch of `start_in` that fails in a job that was stopped meanwhile leaves
the job closing with nobody to close it. -/
theorem not_noneStranded_of_failLaunch :
    (jobMachine.restrict fun _ step => step.InSession).Reachable failedState ∧
      ¬ failedState.NoneStranded := by
  let system := jobMachine.restrict fun _ step => step.InSession
  let stopped : Job := { sampleJob.start with close := some .graceful }
  constructor
  · have spawned : system.Reachable
        (startingState (.reserve "alice" "u1" false none)
          (.building "alice" sampleSandbox none)) :=
      .step (.spawn "alice" "u1" false none) (.start rfl)
        ⟨⟨1, ⟨rfl, rfl⟩, List.not_mem_nil, rfl⟩, trivial⟩
    have built : system.Reachable (.sample sampleJob ∅ 0) :=
      .step (.build "alice" sampleSandbox none) spawned
        ⟨⟨0, rfl, rfl, rfl⟩, trivial⟩
    have started : system.Reachable
        (startingState sampleJob.start
          (.waiting "alice" "true" sampleSandbox)) :=
      .step (.startIn "alice" "true") built
        ⟨⟨sampleJob, rfl, rfl, rfl, rfl, rfl⟩, trivial⟩
    have closing : system.Reachable
        (startingState stopped (.waiting "alice" "true" sampleSandbox)) :=
      .step (.stop "alice" false) started
        ⟨⟨sampleJob.start, rfl, rfl, rfl⟩, trivial⟩
    have waited : system.Reachable
        (startingState stopped
          (.preparing "alice" "true" sampleSandbox false)) :=
      .step (.waited "alice" "true" sampleSandbox) closing
        ⟨⟨.inr rfl, 0, rfl, rfl⟩, trivial⟩
    have prepared : system.Reachable
        (startingState stopped
          (.launching "alice" "true" sampleSandbox sampleSandbox false)) :=
      .step (.prepare "alice" "true" sampleSandbox false) waited
        ⟨⟨0, rfl, rfl⟩, trivial⟩
    exact .step
      (.failLaunch "alice" "true" sampleSandbox sampleSandbox false none true)
      prepared ⟨⟨0, rfl, rfl⟩, trivial⟩
  · intro none
    obtain ⟨task, member, -⟩ | running | ⟨_, _, member⟩ |
      ⟨_, _, queued | concluding⟩ | ⟨_, reporting | closing⟩ | ⟨_, member⟩ :=
      none.1 _ List.mem_cons_self rfl
    · exact Multiset.notMem_zero _ member
    · exact Bool.false_ne_true running
    · exact Multiset.notMem_zero _ member
    · exact List.not_mem_nil queued
    · exact ConcludeTask.noConfusion concluding
    · exact ConcludeTask.noConfusion reporting
    · exact ConcludeTask.noConfusion closing
    · exact Multiset.notMem_zero _ member

end Shellmux
end Marsh
